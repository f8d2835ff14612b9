import Mathlib.Data.Set.Finite.Lattice
import JgreAnalysis.BinderHierarchy
import JgreAnalysis.ExhaustiveSearch
import JgreAnalysis.WorklistClosure

/-! The interfaces above a class. The search for them is the draining of a work
list that keeps no record of the classes it has seen, so it ends because the
hierarchy does, and it collects the interfaces among all supertypes. -/
namespace JgreAnalysis.InterfaceClosure
open SootModel BinderClasses FrameworkScene BinderHierarchy WorklistClosure
open Relation

/-- A framework whose classes form a finite hierarchy below the root class: no
class is above itself, only interfaces are implemented or extended as such, and
only classes are superclasses. -/
structure Hierarchy extends Framework where
  finite : {sc | ∃ sup, DirectSupertype toFramework sc sup}.Finite
  acyclic : ∀ sc, ¬ TransGen (DirectSupertype toFramework) sc sc
  root : ∀ sup, ¬ DirectSupertype toFramework OBJECT sup
  interfaces_above : ∀ sc, ∀ inf ∈ interfaces sc, isInterface inf = true
  classes_above : ∀ sc sup, superclass sc = some sup → isInterface sup = false

variable (f : Framework)

/-- What the search puts on its work list for a class. -/
def enqueued (cur : SootClass) : List SootClass :=
  if cur = OBJECT then [] else (f.superclass cur).toList.filter (· ≠ OBJECT) ++ f.interfaces cur

/-- What it collects for a class. -/
def collected (cur : SootClass) : List SootClass := if cur = OBJECT then [] else f.interfaces cur

/-- An interface among the supertypes of the class, itself included. -/
def InterfaceAbove (sc inf : SootClass) : Prop :=
  f.isInterface inf = true ∧ ReflTransGen (DirectSupertype f) sc inf

/-- The interface directly extends `IInterface`. -/
def ExtendsIInterface (inf : SootClass) : Prop := IInterface ∈ f.interfaces inf

variable {f}

theorem collectInterfaces_eq_drain (rounds : ℕ) (allCls ret : List SootClass) :
    collectInterfaces f rounds allCls ret = drain (enqueued f) (collected f) rounds allCls ret := by
  induction rounds generalizing allCls ret with
  | zero => cases allCls <;> rfl
  | succ rounds ih =>
    cases allCls with
    | nil => rfl
    | cons cur allCls =>
      rw [collectInterfaces, drain, enqueued, collected]
      split
      · rw [ih, List.append_nil]
        rfl
      · rw [ih, List.append_assoc]

/-! ## The ways up -/

theorem directSupertype_of_leads (leads : Leads (enqueued f) sc sup) : DirectSupertype f sc sup := by
  unfold Leads enqueued at leads
  split at leads
  · cases leads
  · rcases List.mem_append.mp leads with superclass | interface
    · exact .inl (Option.mem_toList.mp (List.mem_filter.mp superclass).1)
    · exact .inr interface

variable (h : Hierarchy)

/-- Every step up that does not end at the root is on the work list. -/
theorem leads_of_directSupertype (step : DirectSupertype h.toFramework sc sup) (proper : sup ≠ OBJECT) :
    Leads (enqueued h.toFramework) sc sup := by
  have below : sc ≠ OBJECT := by
    rintro rfl
    exact h.root sup step
  rw [Leads, enqueued, if_neg below]
  rcases step with superclass | interface
  · refine List.mem_append_left _ (List.mem_filter.mpr ⟨Option.mem_toList.mpr superclass, ?_⟩)
    simpa using proper
  · exact List.mem_append_right _ interface

/-- The work list goes every way up to a class that is not the root. -/
theorem way_up (way : ReflTransGen (DirectSupertype h.toFramework) sc sup) (proper : sup ≠ OBJECT) :
    ReflTransGen (Leads (enqueued h.toFramework)) sc sup := by
  induction way with
  | refl => exact .refl
  | @tail middle sup _ step ih =>
    have inside : middle ≠ OBJECT := by
      rintro rfl
      exact h.root sup step
    exact (ih inside).tail (leads_of_directSupertype h step proper)

/-- The interfaces above a class are those collected on the way, and the class
itself when it is one. -/
theorem interfaceAbove_iff (sc inf : SootClass) : InterfaceAbove h.toFramework sc inf ↔
    (h.isInterface sc = true ∧ inf = sc) ∨ Given (enqueued h.toFramework) (collected h.toFramework) [sc] inf := by
  have collects (c : SootClass) : inf ∈ collected h.toFramework c ↔ inf ∈ h.interfaces c := by
    unfold collected
    split
    · rename_i top
      subst top
      exact iff_of_false List.not_mem_nil fun listed => h.root inf (.inr listed)
    · exact Iff.rfl
  constructor
  · rintro ⟨interface, way⟩
    rcases ReflTransGen.cases_tail way with same | ⟨last, up, step⟩
    · exact .inl ⟨same ▸ interface, same⟩
    · rcases step with superclass | listed
      · rw [h.classes_above last inf superclass] at interface
        cases interface
      · have proper : last ≠ OBJECT := by
          rintro rfl
          exact h.root inf (.inr listed)
        exact .inr ⟨sc, List.mem_singleton_self sc, last, way_up h up proper, (collects last).mpr listed⟩
  · rintro (⟨interface, rfl⟩ | ⟨start, member, last, way, given⟩)
    · exact ⟨interface, .refl⟩
    · obtain rfl := List.mem_singleton.mp member
      have listed := (collects last).mp given
      have up : ReflTransGen (DirectSupertype h.toFramework) start last :=
        way.lift id fun _ _ => directSupertype_of_leads
      exact ⟨h.interfaces_above last inf listed, up.tail (.inr listed)⟩

/-! ## The ways end -/

/-- Only finitely many classes are above a class. -/
theorem finitely_above (sc : SootClass) : {sup | ReflTransGen (DirectSupertype h.toFramework) sc sup}.Finite := by
  have direct (c : SootClass) : {sup | DirectSupertype h.toFramework c sup}.Finite := by
    refine (List.finite_toSet ((h.superclass c).toList ++ h.interfaces c)).subset ?_
    rintro sup (superclass | interface)
    · exact List.mem_append_left _ (Option.mem_toList.mpr superclass)
    · exact List.mem_append_right _ interface
  refine ((h.finite.biUnion fun c _ => direct c).insert sc).subset ?_
  rintro sup way
  rcases ReflTransGen.cases_tail way with same | ⟨last, _, step⟩
  · exact .inl same
  · exact .inr (Set.mem_biUnion ⟨sup, step⟩ step)

theorem leads_founded : WellFounded fun sup sc => Leads (enqueued h.toFramework) sc sup := by
  refine ⟨fun sc => ?_⟩
  have reversed : ∀ {a b : SootClass}, ReflTransGen (fun sup sc => DirectSupertype h.toFramework sc sup) a b ↔
      ReflTransGen (DirectSupertype h.toFramework) b a := reflTransGen_swap
  have finite : {sup | ReflTransGen (fun sup sc => DirectSupertype h.toFramework sc sup) sup sc}.Finite := by
    simpa only [reversed] using finitely_above h sc
  have ends := (ExhaustiveSearch.acc_iff_no_cycle finite).mpr fun sup _ cycle =>
    h.acyclic sup (transGen_swap.mp cycle)
  exact Subrelation.accessible (fun leads => directSupertype_of_leads leads) ends

/-! ## The interfaces found -/

/-- The search for interfaces ends, and finds those among the supertypes. -/
theorem getInfForClass_exact (sc : SootClass) : ∃ enough, ∀ rounds ≥ enough, ∃ infs,
    getInfForClass h.toFramework rounds sc = some infs ∧ ∀ inf, inf ∈ infs ↔ InterfaceAbove h.toFramework sc inf := by
  let start := if h.isInterface sc then [sc] else []
  obtain ⟨enough, finishes⟩ := drain_finishes (collected h.toFramework) (leads_founded h) [sc] start
  refine ⟨enough, fun rounds more => ?_⟩
  obtain ⟨result, ran⟩ := finishes rounds more
  have found : getInfForClass h.toFramework rounds sc = some (h.classOrder.arrange result) := by
    rw [getInfForClass, collectInterfaces_eq_drain, ran]
    rfl
  refine ⟨_, found, fun inf => ?_⟩
  rw [h.classOrder.mem_arrange, mem_drain ran, interfaceAbove_iff]
  refine or_congr ?_ Iff.rfl
  by_cases interface : h.isInterface sc = true <;> simp [start, interface]

/-- Where some interface above the class directly extends `IInterface`, the
lookup returns such an interface, and the class itself where none does. -/
theorem stub_of_exact {infs : List SootClass} (ran : getInfForClass h.toFramework rounds sc = some infs)
    (exact_ : ∀ inf, inf ∈ infs ↔ InterfaceAbove h.toFramework sc inf) :
    ∃ stub, getInfForImpl h.toFramework rounds sc = some stub ∧
      ((∃ inf, InterfaceAbove h.toFramework sc inf ∧ ExtendsIInterface h.toFramework inf) →
        InterfaceAbove h.toFramework sc stub ∧ ExtendsIInterface h.toFramework stub) ∧
      ((¬ ∃ inf, InterfaceAbove h.toFramework sc inf ∧ ExtendsIInterface h.toFramework inf) → stub = sc) := by
  have extends_ (inf : SootClass) : isIInterface h.toProgram inf = true ↔ ExtendsIInterface h.toFramework inf :=
    namesInterface_iff (f := h.toFramework) inf
  have looked : getInfForImpl h.toFramework rounds sc =
      some ((infs.find? fun inf => isIInterface h.toProgram inf).getD sc) := by
    rw [getInfForImpl, ran]
    rfl
  refine ⟨_, looked, ?_⟩
  cases found : infs.find? fun inf => isIInterface h.toProgram inf with
  | some inf =>
    have above := (exact_ inf).mp (List.mem_of_find?_eq_some found)
    have direct := (extends_ inf).mp (List.find?_some found)
    exact ⟨fun _ => ⟨above, direct⟩, fun none => absurd ⟨inf, above, direct⟩ none⟩
  | none =>
    refine ⟨?_, fun _ => rfl⟩
    rintro ⟨inf, above, direct⟩
    exact absurd ((extends_ inf).mpr direct) (List.find?_eq_none.mp found inf ((exact_ inf).mpr above))

/-- The search for the interfaces of a class ends and returns exactly those
among its supertypes, and the lookup of its stub returns one of them that
directly extends `IInterface` wherever there is one. -/
theorem interfaces_and_stub (h : Hierarchy) (sc : SootClass) : ∃ enough, ∀ rounds ≥ enough,
    (∃ infs, getInfForClass h.toFramework rounds sc = some infs ∧
      ∀ inf, inf ∈ infs ↔ InterfaceAbove h.toFramework sc inf) ∧
    ∃ stub, getInfForImpl h.toFramework rounds sc = some stub ∧
      ((∃ inf, InterfaceAbove h.toFramework sc inf ∧ ExtendsIInterface h.toFramework inf) →
        InterfaceAbove h.toFramework sc stub ∧ ExtendsIInterface h.toFramework stub) ∧
      ((¬ ∃ inf, InterfaceAbove h.toFramework sc inf ∧ ExtendsIInterface h.toFramework inf) → stub = sc) := by
  obtain ⟨enough, finds⟩ := getInfForClass_exact h sc
  refine ⟨enough, fun rounds more => ?_⟩
  obtain ⟨infs, ran, exact_⟩ := finds rounds more
  exact ⟨⟨infs, ran, exact_⟩, stub_of_exact h ran exact_⟩

/-! ## A diamond -/

/-- Steps that lower a rank form no cycle. -/
theorem acyclic_of_rank (rank : SootClass → ℕ) (lower : ∀ sc sup, DirectSupertype f sc sup → rank sup < rank sc)
    (sc : SootClass) : ¬ TransGen (DirectSupertype f) sc sc := by
  have descends (start sup : SootClass) (way : TransGen (DirectSupertype f) start sup) : rank sup < rank start := by
    induction way with
    | single step => exact lower _ _ step
    | tail _ step ih => exact (lower _ _ step).trans ih
  exact fun cycle => (descends sc sc cycle).false

/-- A service with two interfaces that extend the same one. -/
def diamondFramework : Framework :=
  { sampleFramework { sampleProgram fun _ => [] with
      isInterface := fun sc => decide (sc.name ∈ ["IFirst", "ISecond", "IService", "android.os.IInterface"])
      interfaces := fun sc =>
        if sc.name = "Service" then [⟨"IFirst"⟩, ⟨"ISecond"⟩]
        else if sc.name = "IFirst" ∨ sc.name = "ISecond" then [⟨"IService"⟩]
        else if sc.name = "IService" then [IInterface]
        else [] } with
    superclass := fun sc =>
      if sc.name = "Service" then some ⟨"BaseService"⟩ else if sc.name = "BaseService" then some OBJECT else none }

theorem diamond_steps : DirectSupertype diamondFramework sc sup ↔
    (sc = ⟨"Service"⟩ ∧ (sup = ⟨"BaseService"⟩ ∨ sup = ⟨"IFirst"⟩ ∨ sup = ⟨"ISecond"⟩)) ∨
    (sc = ⟨"BaseService"⟩ ∧ sup = OBJECT) ∨
    ((sc = ⟨"IFirst"⟩ ∨ sc = ⟨"ISecond"⟩) ∧ sup = ⟨"IService"⟩) ∨ (sc = ⟨"IService"⟩ ∧ sup = IInterface) := by
  obtain ⟨name⟩ := sc
  by_cases service : name = "Service"
  · subst service
    simp [DirectSupertype, Extends, diamondFramework, sampleFramework, eq_comm]
  · by_cases base : name = "BaseService"
    · subst base
      simp [DirectSupertype, Extends, diamondFramework, sampleFramework, eq_comm]
    · by_cases first : name = "IFirst" ∨ name = "ISecond"
      · rcases first with rfl | rfl <;> simp [DirectSupertype, Extends, diamondFramework, sampleFramework]
      · by_cases stub : name = "IService"
        · subst stub
          simp [DirectSupertype, Extends, diamondFramework, sampleFramework]
        · simp [DirectSupertype, Extends, diamondFramework, sampleFramework, service, base, first, stub]

def diamondRank (sc : SootClass) : ℕ :=
  ["java.lang.Object", "android.os.IInterface", "BaseService", "IService", "IFirst", "ISecond", "Service"].idxOf sc.name

def diamond : Hierarchy where
  toFramework := diamondFramework
  finite := by
    refine (List.finite_toSet [⟨"Service"⟩, ⟨"BaseService"⟩, ⟨"IFirst"⟩, ⟨"ISecond"⟩, ⟨"IService"⟩]).subset ?_
    rintro sc ⟨sup, step⟩
    rcases diamond_steps.mp step with ⟨rfl, _⟩ | ⟨rfl, _⟩ | ⟨rfl | rfl, _⟩ | ⟨rfl, _⟩ <;> simp
  acyclic := by
    refine acyclic_of_rank diamondRank fun sc sup step => ?_
    rcases diamond_steps.mp step with ⟨rfl, rfl | rfl | rfl⟩ | ⟨rfl, rfl⟩ | ⟨rfl | rfl, rfl⟩ | ⟨rfl, rfl⟩ <;> decide
  root := by
    intro sup step
    rcases diamond_steps.mp step with ⟨same, _⟩ | ⟨same, _⟩ | ⟨same | same, _⟩ | ⟨same, _⟩ <;>
      revert same <;> decide
  interfaces_above := by
    intro sc inf listed
    rcases diamond_steps.mp (.inr listed) with ⟨rfl, rfl | rfl | rfl⟩ | ⟨rfl, rfl⟩ | ⟨rfl | rfl, rfl⟩ | ⟨rfl, rfl⟩ <;>
      revert listed <;> decide
  classes_above := by
    intro sc sup listed
    rcases diamond_steps.mp (.inl listed) with ⟨rfl, rfl | rfl | rfl⟩ | ⟨rfl, rfl⟩ | ⟨rfl | rfl, rfl⟩ | ⟨rfl, rfl⟩ <;>
      revert listed <;> decide

/-- The shared interface is met twice and found once. -/
example : getInfForClass diamond.toFramework 8 ⟨"Service"⟩ = some [⟨"IFirst"⟩, ⟨"ISecond"⟩, ⟨"IService"⟩, IInterface] ∧
    getInfForImpl diamond.toFramework 8 ⟨"Service"⟩ = some ⟨"IService"⟩ := by
  decide +kernel

end JgreAnalysis.InterfaceClosure
