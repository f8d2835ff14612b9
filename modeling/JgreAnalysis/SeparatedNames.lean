import Mathlib.Data.List.Basic

/-! Names below scopes. A name is written after all its scopes with a separator
behind each of them, and from that text the scopes and the name can be read back
where no scope followed by the beginning of the separator begins a name. -/
namespace JgreAnalysis.SeparatedNames

variable {α : Type}

/-- The name below its scopes, the outermost scope first. -/
def qualified (sep : List α) (scopes : List (List α)) (name : List α) : List α := scopes.flatMap (· ++ sep) ++ name

theorem qualified_nil (sep name : List α) : qualified sep [] name = name := rfl

theorem qualified_cons (sep scope : List α) (scopes : List (List α)) (name : List α) :
    qualified sep (scope :: scopes) name = scope ++ (sep ++ qualified sep scopes name) := by
  simp [qualified]

/-- No text of the second list begins with one of the first and then the mark. -/
def Unmistakable (mark : α) (scopes names : List (List α)) : Prop :=
  ∀ scope ∈ scopes, ∀ name ∈ names, ¬ (scope ++ [mark]) <+: name

theorem Unmistakable.mono {mark : α} {scopes others names texts : List (List α)} (apart : Unmistakable mark others texts)
    (fewer : scopes ⊆ others) (within : names ⊆ texts) : Unmistakable mark scopes names :=
  fun scope member name named => apart scope (fewer member) name (within named)

theorem unmistakable_of_free {mark : α} (scopes : List (List α)) {names : List (List α)}
    (free : ∀ name ∈ names, mark ∉ name) : Unmistakable mark scopes names := by
  rintro scope _ name member ⟨rest, rfl⟩
  exact free _ member (by simp)

/-- A text that goes on with the mark behind one word goes on behind the other,
unless one word and the mark begin the other word. -/
theorem word_eq_of_marked {mark : α} {first second rest other : List α} (same : first ++ mark :: rest = second ++ mark :: other)
    (forward : ¬ (first ++ [mark]) <+: second) (backward : ¬ (second ++ [mark]) <+: first) : first = second := by
  rcases List.append_eq_append_iff.mp same with ⟨gap, rfl, split⟩ | ⟨gap, rfl, split⟩
  · cases gap with
    | nil => simp
    | cons c gap =>
      obtain ⟨rfl, _⟩ := List.cons.inj split
      exact absurd ⟨gap, by simp⟩ forward
  · cases gap with
    | nil => simp
    | cons c gap =>
      obtain ⟨rfl, _⟩ := List.cons.inj split
      exact absurd ⟨gap, by simp⟩ backward

/-- The text of a name below scopes determines the scopes and the name. -/
theorem qualified_injective {mark : α} {tail : List α} {scopes others : List (List α)} {name other : List α}
    (forward : Unmistakable mark scopes (other :: others)) (backward : Unmistakable mark others (name :: scopes))
    (same : qualified (mark :: tail) scopes name = qualified (mark :: tail) others other) :
    scopes = others ∧ name = other := by
  induction scopes generalizing others with
  | nil =>
    cases others with
    | nil => exact ⟨rfl, same⟩
    | cons scope others =>
      rw [qualified_nil, qualified_cons] at same
      exact absurd ⟨tail ++ qualified (mark :: tail) others other, by simp [same]⟩
        (backward scope List.mem_cons_self name List.mem_cons_self)
  | cons scope scopes ih =>
    cases others with
    | nil =>
      rw [qualified_nil, qualified_cons] at same
      exact absurd ⟨tail ++ qualified (mark :: tail) scopes name, by simp [← same]⟩
        (forward scope List.mem_cons_self other List.mem_cons_self)
    | cons second others =>
      rw [qualified_cons, qualified_cons, List.cons_append, List.cons_append] at same
      have first : scope = second := word_eq_of_marked same
        (forward scope List.mem_cons_self second (by simp)) (backward second List.mem_cons_self scope (by simp))
      subst first
      have inner : qualified (mark :: tail) scopes name = qualified (mark :: tail) others other := by
        simpa using same
      obtain ⟨rfl, rfl⟩ := ih
        (forward.mono (List.subset_cons_self _ _) (List.cons_subset_cons _ (List.subset_cons_self _ _)))
        (backward.mono (List.subset_cons_self _ _) (List.cons_subset_cons _ (List.subset_cons_self _ _))) inner
      exact ⟨rfl, rfl⟩

/-! ## Joined words -/

/-- Joined words are the last of them below the others. -/
theorem intercalate_concat (sep : List α) (words : List (List α)) (last : List α) :
    sep.intercalate (words ++ [last]) = qualified sep words last := by
  induction words with
  | nil => simp [qualified]
  | cons word words ih =>
    rw [List.cons_append, List.intercalate_cons_of_ne_nil (by simp), ih, qualified_cons, List.append_assoc]

/-- The text of joined words determines the words. -/
theorem intercalate_injective {mark : α} {tail : List α} {words others : List (List α)} (filled : words ≠ [])
    (othersFilled : others ≠ []) (forward : Unmistakable mark words others) (backward : Unmistakable mark others words)
    (same : (mark :: tail).intercalate words = (mark :: tail).intercalate others) : words = others := by
  obtain ⟨scopes, name, rfl⟩ := List.eq_nil_or_concat words |>.resolve_left filled
  obtain ⟨more, other, rfl⟩ := List.eq_nil_or_concat others |>.resolve_left othersFilled
  rw [List.concat_eq_append, List.concat_eq_append] at *
  rw [intercalate_concat, intercalate_concat] at same
  obtain ⟨rfl, rfl⟩ := qualified_injective (forward.mono (List.subset_append_left _ _) (by simp))
    (backward.mono (List.subset_append_left _ _) (by simp)) same
  rfl

end JgreAnalysis.SeparatedNames
