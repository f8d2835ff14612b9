import Mathlib.Data.List.Induction
import Mathlib.Data.List.Nodup

/-! Hash sets of objects. What a set takes for the same element is decided by a
key of the object, and adding an object whose key is present leaves the object
that is there. A set is listed in the order its elements were added. -/
namespace JgreAnalysis.KeyedSets

variable {α κ : Type} [DecidableEq κ] (key : α → κ)

def add (set : List α) (element : α) : List α :=
  if key element ∈ set.map key then set else set ++ [element]

def addAll (set elements : List α) : List α := elements.foldl (add key) set

/-- What an addition leaves in the set. -/
theorem mem_add_iff (set : List α) (element a : α) :
    a ∈ add key set element ↔ a ∈ set ∨ (a = element ∧ key element ∉ set.map key) := by
  unfold add
  split
  · rename_i present
    simp [present]
  · rename_i absent
    simp [absent]

/-- A key is present after an addition when it was added or present before. -/
theorem key_mem_addAll (set elements : List α) (k : κ) :
    k ∈ (addAll key set elements).map key ↔ k ∈ set.map key ∨ k ∈ elements.map key := by
  induction elements generalizing set with
  | nil => simp [addAll]
  | cons element elements ih =>
    have one : k ∈ (add key set element).map key ↔ k ∈ set.map key ∨ k = key element := by
      unfold add
      split
      · rename_i present
        constructor
        · exact Or.inl
        · rintro (old | rfl)
          · exact old
          · exact present
      · simp
    rw [addAll, List.foldl_cons, ← addAll, ih, one, List.map_cons, List.mem_cons, or_assoc]

/-- Elements whose keys are present change nothing. -/
theorem addAll_absorbs {key : α → κ} {set elements : List α} (present : ∀ a ∈ elements, key a ∈ set.map key) :
    addAll key set elements = set := by
  induction elements with
  | nil => rfl
  | cons element elements ih =>
    obtain ⟨here, later⟩ := List.forall_mem_cons.mp present
    rw [addAll, List.foldl_cons, add, if_pos here]
    exact ih later

/-- With objects for their own keys a set has exactly the elements added. -/
theorem mem_addAll [DecidableEq α] (set elements : List α) (a : α) :
    a ∈ addAll id set elements ↔ a ∈ set ∨ a ∈ elements := by
  simpa using key_mem_addAll id set elements a

theorem mem_add [DecidableEq α] (set : List α) (element a : α) : a ∈ add id set element ↔ a ∈ set ∨ a = element := by
  simpa [addAll] using mem_addAll set [element] a

theorem addAll_append_singleton (set elements : List α) (last : α) :
    addAll key set (elements ++ [last]) = add key (addAll key set elements) last := by
  simp [addAll]

theorem add_of_not_mem [DecidableEq α] {set : List α} (absent : element ∉ set) : add id set element = set ++ [element] := by
  simp [add, absent]

theorem add_nodup [DecidableEq α] {set : List α} (distinct : set.Nodup) : (add id set element).Nodup := by
  unfold add
  split
  · exact distinct
  · rename_i absent
    rw [← List.concat_eq_append]
    exact List.Nodup.concat (by simpa using absent) distinct

theorem addAll_nodup [DecidableEq α] {set : List α} (distinct : set.Nodup) (elements : List α) :
    (addAll id set elements).Nodup := by
  induction elements generalizing set with
  | nil => exact distinct
  | cons element elements ih => exact ih (add_nodup distinct)

/-- Elements without repetitions are listed as they come. -/
theorem addAll_of_nodup [DecidableEq α] {elements : List α} (distinct : elements.Nodup) :
    addAll id [] elements = elements := by
  induction elements using List.reverseRecOn with
  | nil => rfl
  | append_singleton elements last ih =>
    obtain ⟨earlier, _, apart⟩ := List.nodup_append.mp distinct
    rw [addAll_append_singleton, ih earlier]
    exact add_of_not_mem fun member => apart last member last (by simp) rfl

/-- An object is in the set when it was there before or was added first with
its key. -/
theorem mem_addAll_iff_first (set elements : List α) (a : α) :
    a ∈ addAll key set elements ↔ a ∈ set ∨ ∃ before after, elements = before ++ a :: after ∧
      key a ∉ set.map key ∧ key a ∉ before.map key := by
  induction elements using List.reverseRecOn with
  | nil => simp [addAll]
  | append_singleton elements last ih =>
    have earlier (before after : List α) (split : elements ++ [last] = before ++ a :: after) :
        (∃ rest, elements = before ++ a :: rest) ∨ (before = elements ∧ a = last) := by
      induction after using List.reverseRecOn with
      | nil =>
        obtain ⟨same, ends⟩ := List.append_inj' split rfl
        exact .inr ⟨same.symm, (List.singleton_inj.mp ends).symm⟩
      | append_singleton rest final _ =>
        rw [← List.cons_append, ← List.append_assoc] at split
        exact .inl ⟨rest, (List.append_inj' split rfl).1⟩
    rw [addAll_append_singleton, add]
    split
    · rename_i present
      rw [ih]
      refine or_congr Iff.rfl ⟨?_, ?_⟩
      · rintro ⟨before, after, rfl, new⟩
        exact ⟨before, after ++ [last], by simp, new⟩
      · rintro ⟨before, after, split, newSet, newBefore⟩
        rcases earlier before after split with ⟨rest, spelled⟩ | ⟨rfl, rfl⟩
        · exact ⟨before, rest, spelled, newSet, newBefore⟩
        · rcases (key_mem_addAll key set before _).mp present with old | old
          · exact absurd old newSet
          · exact absurd old newBefore
    · rename_i absent
      rw [List.mem_append, List.mem_singleton, ih, or_assoc]
      refine or_congr Iff.rfl ⟨?_, ?_⟩
      · rintro (⟨before, after, rfl, new⟩ | rfl)
        · exact ⟨before, after ++ [last], by simp, new⟩
        · have new := fun present => absent ((key_mem_addAll key set elements _).mpr present)
          exact ⟨elements, [], rfl, fun old => new (.inl old), fun old => new (.inr old)⟩
      · rintro ⟨before, after, split, new⟩
        rcases earlier before after split with ⟨rest, spelled⟩ | ⟨_, same⟩
        · exact .inl ⟨before, rest, spelled, new⟩
        · exact .inr same

end JgreAnalysis.KeyedSets
