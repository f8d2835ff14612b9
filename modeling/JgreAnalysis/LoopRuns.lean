import Mathlib.Computability.StateTransition

/-! Runs of a loop that takes one turn after the other until a turn gives nothing.
What a turn keeps holds in every state that a run comes to, a loop whose turns
use something up ends, and a loop that marks what it visits visits nothing
twice. -/
namespace JgreAnalysis.LoopRuns
open StateTransition Relation

variable {σ α : Type} {turn : σ → Option σ}

/-- What every turn keeps holds in every state of a run. -/
theorem reaches_keeps (holds : σ → Prop) (keeps : ∀ s t, holds s → turn s = some t → holds t) (start : holds s)
    (reached : Reaches turn s t) : holds t := by
  induction reached with
  | refl => exact start
  | tail _ step ih => exact keeps _ _ ih step

/-- A loop whose turns use something up ends from every state. -/
theorem ends_of_measure (left : σ → ℕ) (fewer : ∀ s t, turn s = some t → left t < left s) (s : σ) :
    ∃ final, final ∈ eval turn s := by
  induction remaining : left s using Nat.strongRecOn generalizing s with
  | ind n ih =>
    cases step : turn s with
    | none => exact ⟨s, mem_eval.mpr ⟨.refl, step⟩⟩
    | some t =>
      obtain ⟨final, ended⟩ := ih (left t) (remaining ▸ fewer s t step) t rfl
      exact ⟨final, reaches_eval (.single step) ▸ ended⟩

/-- What is marked when it is visited, and not visited when it is marked, is not
visited again. -/
theorem visited_once (visits : σ → Option α) (marked : σ → Set α)
    (fresh : ∀ s a, visits s = some a → a ∉ marked s)
    (marks : ∀ s t a, turn s = some t → visits s = some a → a ∈ marked t)
    (kept : ∀ s t, turn s = some t → marked s ⊆ marked t)
    (first : visits s = some a) (later : Reaches₁ turn s t) : visits t ≠ some a := by
  intro again
  obtain ⟨next, step, rest⟩ := TransGen.head'_iff.mp later
  have mark : a ∈ marked t :=
    reaches_keeps (fun u => a ∈ marked u) (fun _ _ old turned => kept _ _ turned old) (marks s next a step first) rest
  exact fresh t a again mark

end JgreAnalysis.LoopRuns
