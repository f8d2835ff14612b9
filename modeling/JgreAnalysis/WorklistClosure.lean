import Mathlib.Algebra.GroupWithZero.Nat
import Mathlib.Data.List.Basic
import Mathlib.Logic.Relation
import JgreAnalysis.KeyedSets

/-! Draining a work list that keeps no record of what it has seen. Every node
that is taken puts its successors at the end, so a node is taken once for each
way that leads to it. The list runs dry exactly because every way ends, and
what it collects is what the nodes on these ways give. -/
namespace JgreAnalysis.WorklistClosure
open Relation

variable {α β : Type} {next : α → List α} {gives : α → List β}

/-- One node leads to another in one step. -/
def Leads (next : α → List α) (a b : α) : Prop := b ∈ next a

/-- Some node that the queue leads to gives the item. -/
def Given (next : α → List α) (gives : α → List β) (queue : List α) (item : β) : Prop :=
  ∃ a ∈ queue, ∃ b, ReflTransGen (Leads next) a b ∧ item ∈ gives b

/-- Taking the first node accounts for what it gives, and leaves the rest to
its successors. -/
theorem given_cons (a : α) (queue : List α) (item : β) :
    Given next gives (a :: queue) item ↔ item ∈ gives a ∨ Given next gives (queue ++ next a) item := by
  constructor
  · rintro ⟨start, member, b, way, given⟩
    rcases List.mem_cons.mp member with rfl | waiting
    · rcases ReflTransGen.cases_head way with rfl | ⟨middle, step, rest⟩
      · exact .inl given
      · exact .inr ⟨middle, List.mem_append_right _ step, b, rest, given⟩
    · exact .inr ⟨start, List.mem_append_left _ waiting, b, way, given⟩
  · rintro (given | ⟨start, member, b, way, given⟩)
    · exact ⟨a, List.mem_cons_self, a, .refl, given⟩
    · rcases List.mem_append.mp member with waiting | step
      · exact ⟨start, List.mem_cons_of_mem _ waiting, b, way, given⟩
      · exact ⟨a, List.mem_cons_self, b, .head step way, given⟩

/-! ## What is collected -/

variable [DecidableEq β]

variable (next gives) in
/-- The work list taken from its front, for so many rounds. -/
def drain : ℕ → List α → List β → Option (List β)
  | _, [], found => some found
  | 0, _ :: _, _ => none
  | rounds + 1, a :: queue, found =>
    drain rounds (queue ++ next a) (KeyedSets.addAll id found (gives a))

/-- A list that runs dry has collected exactly what the nodes it leads to give. -/
theorem mem_drain (ran : drain next gives rounds queue found = some result) (item : β) :
    item ∈ result ↔ item ∈ found ∨ Given next gives queue item := by
  induction rounds generalizing queue found with
  | zero =>
    cases queue with
    | nil =>
      cases ran
      simp [Given]
    | cons a queue => cases ran
  | succ rounds ih =>
    cases queue with
    | nil =>
      cases ran
      simp [Given]
    | cons a queue =>
      rw [drain] at ran
      rw [ih ran, KeyedSets.mem_addAll, given_cons, or_assoc]

/-! ## How many rounds it takes -/

/-- Where no way goes on for ever, each node has a number of rounds: one for
itself, and those of its successors. -/
theorem exists_rounds (founded : WellFounded fun b a => Leads next a b) :
    ∃ cost : α → ℕ, ∀ a, cost a = 1 + ((next a).map cost).sum := by
  refine ⟨founded.fix fun a below => 1 + ((next a).attach.map fun step => below step.1 step.2).sum, fun a => ?_⟩
  rw [founded.fix_eq]
  simp only [List.map_attach_eq_pmap, List.pmap_eq_map]

/-- The rounds of the nodes in the queue add up, whatever their order. -/
theorem drain_dry {cost : α → ℕ} (costs : ∀ a, cost a = 1 + ((next a).map cost).sum)
    (enough : (queue.map cost).sum ≤ rounds) (found : List β) :
    ∃ result, drain next gives rounds queue found = some result := by
  induction rounds generalizing queue found with
  | zero =>
    cases queue with
    | nil => exact ⟨found, rfl⟩
    | cons a queue =>
      rw [List.map_cons, List.sum_cons, costs] at enough
      omega
  | succ rounds ih =>
    cases queue with
    | nil => exact ⟨found, rfl⟩
    | cons a queue =>
      apply ih
      rw [List.map_cons, List.sum_cons, costs] at enough
      rw [List.map_append, List.sum_append]
      omega

/-- Where no way goes on for ever, enough rounds drain the list. -/
theorem drain_finishes (gives : α → List β) (founded : WellFounded fun b a => Leads next a b) (queue : List α)
    (found : List β) : ∃ enough, ∀ rounds ≥ enough, ∃ result, drain next gives rounds queue found = some result := by
  obtain ⟨cost, costs⟩ := exists_rounds founded
  exact ⟨(queue.map cost).sum, fun rounds more => drain_dry costs more found⟩

end JgreAnalysis.WorklistClosure
