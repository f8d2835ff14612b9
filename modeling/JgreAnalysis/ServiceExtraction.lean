import Mathlib.Order.Filter.AtTopBot.Finite
import JgreAnalysis.InterfaceClosure
import JgreAnalysis.ServiceRegistrations

/-! The extraction of services as a whole. Its entries are those of the calls that
add services and of the first publishing call of each system service, each with
the interface that its class is found to stand behind. -/
namespace JgreAnalysis.ServiceExtraction
open SootModel FrameworkScene ServiceApi ServiceHelperExtractor ServiceImplExtractor
open LoopLaws InterfaceClosure ServiceRegistrations

/-- A framework with both promises, those about its bodies and those about its
hierarchy, in which every invoke resolves. -/
structure AndroidFramework extends Platform, Hierarchy where
  invokes_resolve : InvokesResolve toFramework

variable (f : Framework)

/-- The calls whose services are taken up. -/
def serviceSites : List CallSite :=
  addServiceSites f ++ (systemServices f).filterMap fun cls => (publishSites f cls).head?

/-- What the class of a service is called through: an interface above it that
directly extends `IInterface` where there is one, and the class itself otherwise. -/
def StandsBehind (cls inf : SootClass) : Prop :=
  ((∃ above, InterfaceAbove f cls above ∧ ExtendsIInterface f above) →
    InterfaceAbove f cls inf ∧ ExtendsIInterface f inf) ∧
  ((¬ ∃ above, InterfaceAbove f cls above ∧ ExtendsIInterface f above) → inf = cls)

/-- A service with the interface of its class. An interface that is registered for
one keeps none. -/
def withInterface (interfaceOf : SootClass → SootClass) (impl : ServiceApiClass) : ServiceApiClass :=
  { impl with inf := impl.implClass.bind fun cls => if f.isInterface cls then none else some (interfaceOf cls) }

/-- The class that the solver finds for a call. -/
def CallSite.implementedBy (site : CallSite) : Option SootClass := ((site.solved f).toOption).getD none

/-- The entries of the calls whose class is found. -/
def serviceEntries (interfaceOf : SootClass → SootClass) : List ServiceApiClass :=
  (serviceSites f).filterMap fun site =>
    (CallSite.implementedBy f site).map fun cls => withInterface f interfaceOf (site.service cls)

variable {f} {p : Platform}

theorem implementing_eq (site : CallSite) :
    CallSite.implementing f site = (CallSite.implementedBy f site).map site.service := by
  unfold CallSite.implementing CallSite.implementedBy
  cases site.solved f with
  | error problem => rfl
  | ok outcome => cases outcome <;> rfl

/-- What the published services leave, without those whose class is not found. -/
theorem published_implementing (f : Framework) :
    ((getSubClassList f kSystemServiceBaseClass).flatMap fun cls => (publishedBy f cls).toList).filter (·.implClass.isSome) =
      ((systemServices f).filterMap fun cls => (publishSites f cls).head?).filterMap (CallSite.implementing f) := by
  unfold systemServices
  induction getSubClassList f kSystemServiceBaseClass with
  | nil => rfl
  | cons cls rest ih =>
    rw [List.flatMap_cons, List.filter_append, ih, List.filter_cons, publishedBy]
    cases interface : f.isInterface cls with
    | true => rfl
    | false =>
      cases first : (publishSites f cls).head? with
      | none => simp [first]
      | some site =>
        have one : ([{ implClass := ((site.solved f).toOption).getD none, serviceName := site.serviceName }] :
            List ServiceApiClass).filter (·.implClass.isSome) = (CallSite.implementing f site).toList := by
          unfold CallSite.implementing
          cases site.solved f with
          | error problem => rfl
          | ok outcome => cases outcome <;> rfl
        simp only [Bool.false_eq_true, if_false, Option.map_some, Option.toList_some, one, Bool.not_false, if_true,
          List.filterMap_cons, first]
        cases CallSite.implementing f site <;> rfl

/-- Both searches together leave the entries of the calls taken up. -/
theorem searches_ok (resolves : InvokesResolve p.toFramework) : ∃ implList,
    (do searchServiceImplRegister p.toFramework; searchServiceImplPublish p.toFramework : Extracting Unit) [] =
      .ok ((), implList) ∧
    (implList.filter (·.implClass.isSome)).Perm
      ((serviceSites p.toFramework).filterMap (CallSite.implementing p.toFramework)) := by
  obtain ⟨added, registered, entries⟩ := searchServiceImplRegister_ok (p := p) fun _ _ mtd _ _ => resolves mtd
  refine ⟨_, state_bind_ok.mpr ⟨(), added, registered, searchServiceImplPublish_ok resolves added⟩, ?_⟩
  rw [List.filter_append, published_implementing, serviceSites, List.filterMap_append, ← entries_implementing (addServiceSites _)]
  exact (entries.filter _).append_right _

/-- The lookups of finitely many interfaces all end when enough rounds are given
to each. -/
theorem interfaces_found (h : Hierarchy) (classes : List SootClass) : ∃ enough, ∀ rounds ≥ enough, ∀ cls ∈ classes,
    ∃ inf, getInfForImpl h.toFramework rounds cls = some inf ∧ StandsBehind h.toFramework cls inf := by
  have each (cls : SootClass) : ∀ᶠ rounds in Filter.atTop,
      ∃ inf, getInfForImpl h.toFramework rounds cls = some inf ∧ StandsBehind h.toFramework cls inf := by
    obtain ⟨enough, finds⟩ := getInfForClass_exact h cls
    refine Filter.eventually_atTop.mpr ⟨enough, fun rounds more => ?_⟩
    obtain ⟨infs, ran, exact_⟩ := finds rounds more
    exact stub_of_exact h ran exact_
  exact Filter.eventually_atTop.mp ((Filter.eventually_all_finite classes.finite_toSet).mpr fun cls _ => each cls)

/-- An entry gets its interface when the lookup for its class ends. -/
theorem setStubInterface_ok {interfaceOf : SootClass → SootClass}
    (found : getInfForImpl f rounds implClass = some (interfaceOf implClass)) (site : CallSite) :
    setStubInterfaceFromImpl f rounds (site.service implClass) = .ok (withInterface f interfaceOf (site.service implClass)) := by
  simp only [setStubInterfaceFromImpl, withInterface, CallSite.service, found, Option.bind_some]
  split
  · rfl
  · rfl

/-- The extraction ends, and its entries are those of the calls taken up, one for
each whose class is found. -/
theorem services_ok (a : AndroidFramework) : ∃ enough, ∀ rounds ≥ enough,
    ∃ services interfaceOf, extractServiceImpl a.toFramework rounds = .ok services ∧
      services.Perm (serviceEntries a.toFramework interfaceOf) ∧
      ∀ site ∈ serviceSites a.toFramework, ∀ cls, CallSite.implementedBy a.toFramework site = some cls →
        StandsBehind a.toFramework cls (interfaceOf cls) := by
  obtain ⟨implList, searched, entries⟩ := searches_ok a.invokes_resolve
  obtain ⟨enough, finds⟩ := interfaces_found a.toHierarchy
    ((serviceSites a.toFramework).filterMap (CallSite.implementedBy a.toFramework))
  refine ⟨enough, fun rounds more => ?_⟩
  let interfaceOf (cls : SootClass) : SootClass := (getInfForImpl a.toFramework rounds cls).getD cls
  have looked (site : CallSite) (listed : site ∈ serviceSites a.toFramework) (cls : SootClass)
      (found : CallSite.implementedBy a.toFramework site = some cls) :
      getInfForImpl a.toFramework rounds cls = some (interfaceOf cls) ∧
        StandsBehind a.toFramework cls (interfaceOf cls) := by
    obtain ⟨inf, ran, behind⟩ := finds rounds more cls (List.mem_filterMap.mpr ⟨site, listed, found⟩)
    have same : interfaceOf cls = inf := by
      change (getInfForImpl a.toHierarchy.toFramework rounds cls).getD cls = inf
      rw [ran, Option.getD_some]
    exact same ▸ ⟨ran, behind⟩
  have completed (impl : ServiceApiClass) (kept : impl ∈ implList.filter (·.implClass.isSome)) :
      setStubInterfaceFromImpl a.toFramework rounds impl = .ok (withInterface a.toFramework interfaceOf impl) := by
    obtain ⟨site, listed, made⟩ := List.mem_filterMap.mp (entries.mem_iff.mp kept)
    rw [implementing_eq] at made
    obtain ⟨cls, found, rfl⟩ := Option.map_eq_some_iff.mp made
    exact setStubInterface_ok (looked site listed cls found).1 site
  have mapped := (mapM_ok_iff (setStubInterfaceFromImpl a.toFramework rounds) _ _).mpr
    (List.forall₂_map_right_iff.mpr (List.forall₂_same.mpr completed))
  refine ⟨(implList.filter (·.implClass.isSome)).map (withInterface a.toFramework interfaceOf), interfaceOf,
    bind_ok.mpr ⟨_, searched, mapped⟩, ?_, fun site listed cls found => (looked site listed cls found).2⟩
  refine (entries.map _).trans (List.Perm.of_eq ?_)
  rw [serviceEntries, List.map_filterMap]
  refine congrArg (List.filterMap · _) (funext fun site => ?_)
  rw [implementing_eq, Option.map_map]
  rfl

end JgreAnalysis.ServiceExtraction
