import Mathlib.Data.List.AList
import Mathlib.Logic.Relation

/-! Chains in a finite map from things to things of the same kind, such as the
map of which variable was copied from which. A chain ends at the one thing on it
that the map says nothing about, unless it runs into a cycle. -/
namespace JgreAnalysis.CopyChains
open Relation

variable {α : Type} [DecidableEq α] {links : AList fun _ : α => α}

/-- The map leads from one thing to the next. -/
def Leads (links : AList fun _ : α => α) (a next : α) : Prop := links.lookup a = some next

/-- The chain that starts here ends there. -/
def Ends (links : AList fun _ : α => α) (start last : α) : Prop :=
  ReflTransGen (Leads links) start last ∧ last ∉ links

/-- The chain that starts here comes to nothing twice. -/
def Acyclic (links : AList fun _ : α => α) (start : α) : Prop :=
  ∀ a, ReflTransGen (Leads links) start a → ¬ TransGen (Leads links) a a

theorem mem_of_leads (leads : Leads links a next) : a ∈ links := by
  rw [← AList.lookup_isSome, leads]
  rfl

theorem leads_of_mem (present : a ∈ links) : ∃ next, Leads links a next :=
  Option.isSome_iff_exists.mp (AList.lookup_isSome.mpr present)

theorem leads_unique (one : Leads links a next) (other : Leads links a rival) : next = rival :=
  Option.some.inj (one.symm.trans other)

theorem ends_cons (leads : Leads links a next) : Ends links a last ↔ Ends links next last := by
  constructor
  · rintro ⟨chain, outside⟩
    rcases ReflTransGen.cases_head chain with rfl | ⟨_, first, rest⟩
    · exact absurd (mem_of_leads leads) outside
    · exact ⟨leads_unique first leads ▸ rest, outside⟩
  · rintro ⟨chain, outside⟩
    exact ⟨.head leads chain, outside⟩

theorem ends_self_iff : Ends links a a ↔ a ∉ links :=
  ⟨And.right, fun outside => ⟨.refl, outside⟩⟩

theorem ends_unique (one : Ends links start last) (other : Ends links start final) : last = final := by
  obtain ⟨chain, outside⟩ := one
  induction chain using ReflTransGen.head_induction_on with
  | refl =>
    rcases ReflTransGen.cases_head other.1 with same | ⟨_, leads, _⟩
    · exact same
    · exact absurd (mem_of_leads leads) outside
  | head leads _ ih => exact ih ((ends_cons leads).mp other)

/-- A chain that ends runs into no cycle, because its end leads nowhere. -/
theorem acyclic_of_ends (ends : Ends links start last) : Acyclic links start := by
  have stays (a : α) (chain : ReflTransGen (Leads links) start a) : Ends links a last := by
    induction chain with
    | refl => exact ends
    | tail _ leads ih => exact (ends_cons leads).mp ih
  intro a chain cycle
  have reached : Ends links a last := stays a chain
  obtain ⟨toEnd, outside⟩ := reached
  induction toEnd using ReflTransGen.head_induction_on with
  | refl =>
    obtain ⟨_, leads, _⟩ := TransGen.head'_iff.mp cycle
    exact outside (mem_of_leads leads)
  | @head a next leads _ ih =>
    have around : TransGen (Leads links) next next := by
      obtain ⟨_, first, back⟩ := TransGen.head'_iff.mp cycle
      exact .tail' (leads_unique first leads ▸ back) leads
    exact ih (chain.tail leads) around

end JgreAnalysis.CopyChains
