import Mathlib.Data.List.AList

/-! Maps that are filled by assignment. Under each key the last assignment
stays. -/
namespace JgreAnalysis.LastBindings

variable {κ ν : Type}

/-- The value is assigned to the key, and no other value later. -/
def IsLast (pairs : List (κ × ν)) (k : κ) (v : ν) : Prop :=
  ∃ before after, pairs = before ++ (k, v) :: after ∧ ∀ later ∈ after, later.1 ≠ k

theorem isLast_cons (pair : κ × ν) (pairs : List (κ × ν)) (k : κ) (v : ν) :
    IsLast (pair :: pairs) k v ↔ IsLast pairs k v ∨ (pair = (k, v) ∧ ∀ later ∈ pairs, later.1 ≠ k) := by
  constructor
  · rintro ⟨before, after, split, last⟩
    cases before with
    | nil =>
      obtain ⟨rfl, rfl⟩ := List.cons.inj split
      exact .inr ⟨rfl, last⟩
    | cons first before =>
      obtain ⟨rfl, rfl⟩ := List.cons.inj split
      exact .inl ⟨before, after, rfl, last⟩
  · rintro (⟨before, after, rfl, last⟩ | ⟨rfl, last⟩)
    · exact ⟨pair :: before, after, rfl, last⟩
    · exact ⟨[], pairs, rfl, last⟩

/-- A key that is assigned has a last assignment, and no other key has. -/
theorem exists_isLast_iff (pairs : List (κ × ν)) (k : κ) : (∃ v, IsLast pairs k v) ↔ ∃ pair ∈ pairs, pair.1 = k := by
  induction pairs with
  | nil => simp [IsLast]
  | cons first pairs ih =>
    simp only [isLast_cons, exists_or, ih, List.exists_mem_cons_iff]
    constructor
    · rintro (later | ⟨v, rfl, _⟩)
      · exact .inr later
      · exact .inl rfl
    · rintro (rfl | later)
      · by_cases again : ∃ pair ∈ pairs, pair.1 = first.1
        · exact .inl again
        · exact .inr ⟨first.2, rfl, fun later member same => again ⟨later, member, same⟩⟩
      · exact .inl later

/-- Where no key is assigned twice every assignment is the last one. -/
theorem isLast_iff_mem {pairs : List (κ × ν)} (distinct : (pairs.map Prod.fst).Nodup) (k : κ) (v : ν) :
    IsLast pairs k v ↔ (k, v) ∈ pairs := by
  constructor
  · rintro ⟨before, after, rfl, _⟩
    simp
  · intro member
    obtain ⟨before, after, rfl⟩ := List.append_of_mem member
    refine ⟨before, after, rfl, fun later inside same => ?_⟩
    rw [List.map_append, List.map_cons] at distinct
    have fresh : k ∉ after.map Prod.fst := (List.nodup_cons.mp (List.nodup_append.mp distinct).2.1).1
    exact fresh (same ▸ List.mem_map_of_mem inside)

/-! ## The maps -/

abbrev Bindings (κ ν : Type) := AList fun _ : κ => ν

variable [DecidableEq κ]

def assign (map : Bindings κ ν) (pair : κ × ν) : Bindings κ ν := map.insert pair.1 pair.2

def assignAll (map : Bindings κ ν) (pairs : List (κ × ν)) : Bindings κ ν := pairs.foldl assign map

/-- Python's `update`: the assignments of another map. -/
def update (map other : Bindings κ ν) : Bindings κ ν :=
  other.entries.foldl (fun map entry => map.insert entry.1 entry.2) map

theorem assignAll_append (map : Bindings κ ν) (first rest : List (κ × ν)) :
    assignAll map (first ++ rest) = assignAll (assignAll map first) rest := by
  simp [assignAll]

/-- A key has the value assigned last, or else the value it had. -/
theorem lookup_assignAll (map : Bindings κ ν) (pairs : List (κ × ν)) (k : κ) (v : ν) :
    (assignAll map pairs).lookup k = some v ↔
      IsLast pairs k v ∨ (map.lookup k = some v ∧ ∀ pair ∈ pairs, pair.1 ≠ k) := by
  induction pairs generalizing map with
  | nil => simp [assignAll, IsLast]
  | cons pair pairs ih =>
    rw [assignAll, List.foldl_cons, ← assignAll, ih, isLast_cons, or_assoc, List.forall_mem_cons]
    refine or_congr Iff.rfl ?_
    by_cases same : k = pair.1
    · subst same
      simp [assign, Prod.ext_iff, eq_comm]
    · rw [assign, AList.lookup_insert_ne same]
      simp [Prod.ext_iff, Ne.symm same]

/-- Updating with a map is making its assignments. -/
theorem lookup_update (map : Bindings κ ν) (pairs : List (κ × ν)) (k : κ) :
    (update map (assignAll ∅ pairs)).lookup k = (assignAll map pairs).lookup k := by
  have entries (other : Bindings κ ν) : update map other = assignAll map (other.entries.map fun entry => (entry.1, entry.2)) := by
    rw [update, assignAll, List.foldl_map]
    rfl
  have distinct (other : Bindings κ ν) : ((other.entries.map fun entry => (entry.1, entry.2)).map Prod.fst).Nodup := by
    rw [List.map_map]
    exact other.keys_nodup
  have last (v : ν) : IsLast ((assignAll ∅ pairs).entries.map fun entry => (entry.1, entry.2)) k v ↔ IsLast pairs k v := by
    have stored : (assignAll ∅ pairs).lookup k = some v ↔ IsLast pairs k v :=
      (lookup_assignAll ∅ pairs k v).trans (or_iff_left (by simp))
    rw [isLast_iff_mem (distinct _), ← stored, ← Option.mem_def, AList.mem_lookup_iff, List.mem_map]
    constructor
    · rintro ⟨entry, member, same⟩
      cases same
      exact member
    · exact fun member => ⟨⟨k, v⟩, member, rfl⟩
  have absent : (∀ pair ∈ (assignAll ∅ pairs).entries.map fun entry => (entry.1, entry.2), pair.1 ≠ k) ↔
      ∀ pair ∈ pairs, pair.1 ≠ k := by
    have assigned := exists_isLast_iff ((assignAll ∅ pairs).entries.map fun entry => (entry.1, entry.2)) k
    simp only [last, exists_isLast_iff] at assigned
    simpa only [not_exists, not_and] using not_congr assigned.symm
  ext v
  rw [entries]
  rw [lookup_assignAll, lookup_assignAll, last, absent]

end JgreAnalysis.LastBindings
