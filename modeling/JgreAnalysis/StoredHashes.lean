import Mathlib.Data.List.Basic

/-! Hash sets of mutable objects. A set keeps with each object the hash it had
when it was added, and finds an object by its present hash and its identity. An
object that is changed in place stays in the set, but it is found only while the
change leaves its hash alone. -/
namespace JgreAnalysis.StoredHashes

/-- An object is the same object as long as its identity is. -/
structure Object (α : Type) where
  id : ℕ
  value : α
  deriving DecidableEq, Repr

structure Node (α η : Type) where
  hash : η
  object : Object α
  deriving DecidableEq, Repr

def Node.change (change : α → α) (node : Node α η) : Node α η :=
  { node with object := { node.object with value := change node.object.value } }

variable {α η ε σ : Type} {nodes : List (Node α η)} (hashCode : Object α → η)

/-- Every stored hash is the present hash of its object. -/
def Settled (nodes : List (Node α η)) : Prop := ∀ node ∈ nodes, node.hash = hashCode node.object

def updateNode (update : α → StateT σ (Except ε) α) (node : Node α η) : StateT σ (Except ε) (Node α η) := do
  let value ← update node.object.value
  pure (node.change fun _ => value)

/-- The objects of a set are changed in place, one after the other. -/
def updateAll (update : α → StateT σ (Except ε) α) (nodes : List (Node α η)) :
    StateT σ (Except ε) (List (Node α η)) :=
  nodes.mapM (updateNode update)

variable {hashCode}

/-- A change that leaves the hashes alone leaves the set settled. -/
theorem settled_change {change : α → α} (settled : Settled hashCode nodes)
    (same : ∀ node ∈ nodes, hashCode (node.change change).object = hashCode node.object) :
    Settled hashCode (nodes.map (Node.change change)) := by
  rintro node member
  obtain ⟨old, inside, rfl⟩ := List.mem_map.mp member
  exact (settled old inside).trans (same old inside).symm

/-- Updates that succeed on every object make their changes, and add up to one
state. -/
theorem updateAll_ok {update : α → StateT σ (Except ε) α} {change : α → α} {effect : α → σ → σ}
    (succeeds : ∀ node ∈ nodes, ∀ state,
      update node.object.value state = .ok (change node.object.value, effect node.object.value state)) (state : σ) :
    updateAll update nodes state =
      .ok (nodes.map (Node.change change), nodes.foldl (fun state node => effect node.object.value state) state) := by
  unfold updateAll
  induction nodes generalizing state with
  | nil => rfl
  | cons node nodes ih =>
    have rest := ih (fun other member => succeeds other (List.mem_cons_of_mem _ member))
      (effect node.object.value state)
    have updated : updateNode update node state = .ok (node.change change, effect node.object.value state) := by
      simp only [updateNode, bind, StateT.bind, Except.bind, succeeds node List.mem_cons_self]
      rfl
    simp only [List.mapM_cons, bind, StateT.bind, Except.bind, updated, rest]
    rfl

/-! ## Finding objects -/

variable [DecidableEq η]

variable (hashCode) in
def contains (nodes : List (Node α η)) (object : Object α) : Bool :=
  nodes.any fun node => node.hash == hashCode object && node.object.id == object.id

variable (hashCode) in
def add (nodes : List (Node α η)) (object : Object α) : List (Node α η) :=
  if contains hashCode nodes object then nodes else nodes ++ [⟨hashCode object, object⟩]

variable (hashCode) in
def addAll (nodes : List (Node α η)) (objects : List (Object α)) : List (Node α η) :=
  objects.foldl (add hashCode) nodes

/-- A settled set finds every object that it holds. -/
theorem contains_of_settled (settled : Settled hashCode nodes) (member : node ∈ nodes) :
    contains hashCode nodes node.object = true := by
  rw [contains, List.any_eq_true]
  exact ⟨node, member, by simp [settled node member]⟩

theorem addAll_settled (settled : Settled hashCode nodes) (objects : List (Object α)) :
    Settled hashCode (addAll hashCode nodes objects) := by
  induction objects generalizing nodes with
  | nil => exact settled
  | cons object objects ih =>
    apply ih
    unfold add
    split
    · exact settled
    · exact List.forall_mem_append.mpr ⟨settled, by simp⟩

theorem mem_addAll_object (member : node ∈ addAll hashCode nodes objects) : node ∈ nodes ∨ node.object ∈ objects := by
  induction objects generalizing nodes with
  | nil => exact .inl member
  | cons object objects ih =>
    rcases ih member with here | later
    · unfold add at here
      split at here
      · exact .inl here
      · rcases List.mem_append.mp here with old | new
        · exact .inl old
        · exact .inr (List.mem_singleton.mp new ▸ List.mem_cons_self)
    · exact .inr (List.mem_cons_of_mem _ later)

end JgreAnalysis.StoredHashes
