import Mathlib.Data.List.Chain

/-! Reachability that counts its edges. A depth bound limits how many edges a
search may follow, so what it can find is stated with the exact number of
edges on the way and not with the reflexive-transitive closure alone. -/
namespace JgreAnalysis.BoundedReach

/-- The second node is reached from the first along exactly this many edges. -/
inductive Steps {α : Type} (edge : α → α → Prop) : ℕ → α → α → Prop where
  | here (a : α) : Steps edge 0 a a
  | step : edge a b → Steps edge n b c → Steps edge (n + 1) a c

/-- Fewer edges than the bound lead from one node to the other. -/
def ReachedWithin {α : Type} (edge : α → α → Prop) (bound : ℕ) (a b : α) : Prop :=
  ∃ n < bound, Steps edge n a b

variable {α : Type} {edge : α → α → Prop} {a b c : α}

/-- A linked list of nodes reaches its last node in as many edges as it has
links. -/
theorem steps_of_isChain (nodes : List α) (linked : (a :: nodes).IsChain edge)
    (last : (a :: nodes).getLast? = some b) : Steps edge nodes.length a b := by
  induction nodes generalizing a with
  | nil =>
    cases last
    exact .here a
  | cons next nodes ih =>
    obtain ⟨first, rest⟩ := List.isChain_cons_cons.mp linked
    exact .step first (ih rest (by simpa [List.getLast?_cons_cons] using last))

end JgreAnalysis.BoundedReach
