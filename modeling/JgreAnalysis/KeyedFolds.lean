import Mathlib.Data.List.Perm.Basic

/-! Folds looked at through one key. When an item leaves what is observed alone
unless it concerns the key, the items that concern the key decide what is
observed after the fold; the order of the other items is no matter. -/
namespace JgreAnalysis.KeyedFolds

variable {σ ι ρ : Type} {step : σ → ι → σ} {observe : σ → ρ} {concerns : ι → Bool}

/-- A step changes what is observed only on the items that concern it, and then
by what was observed before. -/
structure Keyed (step : σ → ι → σ) (observe : σ → ρ) (concerns : ι → Bool) : Prop where
  congr : observe s = observe t → observe (step s item) = observe (step t item)
  apart : concerns item = false → observe (step s item) = observe s

/-- The items that concern an observation decide it. -/
theorem fold_concerned (law : Keyed step observe concerns) (items : List ι) (same : observe s = observe t) :
    observe (items.foldl step s) = observe ((items.filter concerns).foldl step t) := by
  induction items generalizing s t with
  | nil => exact same
  | cons item items ih =>
    rw [List.foldl_cons]
    cases touched : concerns item with
    | true =>
      rw [List.filter_cons_of_pos touched, List.foldl_cons]
      exact ih (law.congr same)
    | false =>
      rw [List.filter_cons_of_neg (by simp [touched])]
      exact ih ((law.apart touched).trans same)

/-- A selection of one item at most is the same from every order. -/
theorem filter_eq_of_perm {items other : List ι} (perm : other.Perm items) (single : items.countP concerns ≤ 1) :
    other.filter concerns = items.filter concerns := by
  have selected : (other.filter concerns).Perm (items.filter concerns) := perm.filter _
  rw [List.countP_eq_length_filter] at single
  match chosen : items.filter concerns with
  | [] => rwa [chosen, List.perm_nil] at selected
  | [item] => rwa [chosen, List.perm_singleton] at selected
  | _ :: _ :: _ =>
    rw [chosen] at single
    simp at single

/-- Where one item at most concerns an observation, every order of the items
leads to the same observation. -/
theorem fold_perm (law : Keyed step observe concerns) {items other : List ι} (perm : other.Perm items)
    (single : items.countP concerns ≤ 1) (same : observe s = observe t) :
    observe (other.foldl step s) = observe (items.foldl step t) :=
  calc observe (other.foldl step s)
      = observe ((other.filter concerns).foldl step s) := fold_concerned law other rfl
    _ = observe ((items.filter concerns).foldl step s) := by rw [filter_eq_of_perm perm single]
    _ = observe (items.foldl step t) := (fold_concerned law items same.symm).symm

end JgreAnalysis.KeyedFolds
