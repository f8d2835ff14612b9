import Mathlib.Data.List.AList
import JgreAnalysis.KeyedSets

/-! Maps of sets, as a report groups its items. The first item of a group makes
its set, and every item goes into the set of its group. -/
namespace JgreAnalysis.GroupedSets
open KeyedSets

variable {α κ : Type} [DecidableEq κ]

/-- The items of one group, in order. -/
def groupOf (items : List (κ × α)) (k : κ) : List α := (items.filter fun item => item.1 = k).map Prod.snd

theorem groupOf_nodup {items : List (κ × α)} (distinct : (items.map Prod.snd).Nodup) (k : κ) :
    (groupOf items k).Nodup :=
  distinct.sublist (List.filter_sublist.map Prod.snd)

/-- The groups together hold every item once. -/
theorem groups_perm {items : List (κ × α)} (distinct : (items.map Prod.snd).Nodup) {ks : List κ} (once : ks.Nodup)
    (all : ∀ item ∈ items, item.1 ∈ ks) : (ks.flatMap (groupOf items)).Perm (items.map Prod.snd) := by
  have inside (a : α) : a ∈ ks.flatMap (groupOf items) ↔ a ∈ items.map Prod.snd := by
    rw [List.mem_flatMap]
    constructor
    · rintro ⟨k, _, member⟩
      obtain ⟨item, kept, rfl⟩ := List.mem_map.mp member
      exact List.mem_map_of_mem (List.mem_filter.mp kept).1
    · intro member
      obtain ⟨item, listed, rfl⟩ := List.mem_map.mp member
      exact ⟨item.1, all item listed, List.mem_map_of_mem (List.mem_filter.mpr ⟨listed, by simp⟩)⟩
  refine (List.perm_ext_iff_of_nodup ?_ distinct).mpr inside
  refine List.nodup_flatMap.mpr ⟨fun k _ => groupOf_nodup distinct k, once.imp fun {k other} apart => ?_⟩
  -- an entry belongs to one item, and so to one group
  intro a here there
  obtain ⟨item, kept, rfl⟩ := List.mem_map.mp here
  obtain ⟨another, held, same⟩ := List.mem_map.mp there
  obtain ⟨listed, grouped⟩ := List.mem_filter.mp kept
  obtain ⟨spelled, placed⟩ := List.mem_filter.mp held
  have equal : another = item := List.inj_on_of_nodup_map distinct spelled listed same
  subst equal
  simp only [decide_eq_true_eq] at grouped placed
  exact apart (grouped.symm.trans placed)

/-! ## Filling the sets -/

abbrev Groups (κ α : Type) := AList fun _ : κ => List α

variable {η : Type} [DecidableEq η] (key : α → η)

def put (results : Groups κ α) (item : κ × α) : Groups κ α :=
  results.insert item.1 (add key ((results.lookup item.1).getD []) item.2)

def putAll (results : Groups κ α) (items : List (κ × α)) : Groups κ α := items.foldl (put key) results

variable {key}

theorem mem_putAll (results : Groups κ α) (items : List (κ × α)) (k : κ) :
    k ∈ putAll key results items ↔ k ∈ results ∨ k ∈ items.map Prod.fst := by
  induction items generalizing results with
  | nil => simp [putAll]
  | cons item items ih =>
    rw [putAll, List.foldl_cons, ← putAll, ih, put, AList.mem_insert, List.map_cons, List.mem_cons]
    tauto

/-- A set takes the items of its group. -/
theorem lookup_putAll (results : Groups κ α) (items : List (κ × α)) (k : κ) :
    ((putAll key results items).lookup k).getD [] =
      addAll key ((results.lookup k).getD []) (groupOf items k) := by
  induction items generalizing results with
  | nil => rfl
  | cons item items ih =>
    rw [putAll, List.foldl_cons, ← putAll, ih]
    by_cases same : item.1 = k
    · subst same
      simp [put, groupOf, addAll]
    · have other : (put key results item).lookup k = results.lookup k := AList.lookup_insert_ne (Ne.symm same)
      simp [other, groupOf, same]

theorem mem_groupOf (items : List (κ × α)) (k : κ) (a : α) : a ∈ groupOf items k ↔ (k, a) ∈ items := by
  simp [groupOf]

/-- The keys in a set are those that were there, and those of the items put into
its group. -/
theorem key_mem_putAll (results : Groups κ α) (items : List (κ × α)) (k : κ) (e : η) :
    e ∈ (((putAll key results items).lookup k).getD []).map key ↔
      e ∈ ((results.lookup k).getD []).map key ∨ ∃ a, (k, a) ∈ items ∧ key a = e := by
  rw [lookup_putAll, key_mem_addAll]
  simp only [List.mem_map, mem_groupOf]

/-- Items whose keys are all there change nothing. -/
theorem putAll_absorbs {results : Groups κ α} {items : List (κ × α)}
    (present : ∀ item ∈ items, item.1 ∈ results ∧ key item.2 ∈ ((results.lookup item.1).getD []).map key) (k : κ) :
    (putAll key results items).lookup k = results.lookup k := by
  have sets : ((putAll key results items).lookup k).getD [] = (results.lookup k).getD [] := by
    rw [lookup_putAll]
    exact addAll_absorbs fun a member => (present (k, a) ((mem_groupOf items k a).mp member)).2
  have keys : k ∈ putAll key results items ↔ k ∈ results := by
    rw [mem_putAll]
    refine or_iff_left_of_imp fun named => ?_
    obtain ⟨item, member, rfl⟩ := List.mem_map.mp named
    exact (present item member).1
  rw [← AList.lookup_isSome, ← AList.lookup_isSome] at keys
  cases before : results.lookup k <;> cases after : (putAll key results items).lookup k <;> simp_all

/-- Without repetitions a set lists the items of its group. -/
theorem lookup_putAll_nodup [DecidableEq α] {items : List (κ × α)} (distinct : (groupOf items k).Nodup) :
    ((putAll id ∅ items).lookup k).getD [] = groupOf items k :=
  (lookup_putAll ∅ items k).trans (addAll_of_nodup distinct)

end JgreAnalysis.GroupedSets
