import JgreAnalysis.AnalysisHelperApi
import JgreAnalysis.CallGraphVerdict
import JgreAnalysis.ServiceApi

/-! The detection pipeline. A first pass over the API entries searches every
service method for a vulnerability, and a second one searches the helper
classes for methods that lead to a vulnerable service method. -/
namespace JgreAnalysis.VulnerabilitiesDetecting
open SootModel ExitPointChecker CallGraphSearch AnalysisHelperApi ServiceApi LoopLaws

def callGraphLev : ℕ := 4

def checkExitPointExtractly : Bool := true

/-- The sets that detection fills, and the findings by method. -/
structure Detection where
  helperVulSet : List SootMethod := []
  vulSet : List SootMethod := []
  vulMap : AList (fun _ : SootMethod => VulnerableApiDesc) := ∅

/-- Detection stops at an invoke that does not resolve, or at the assertion
that a service entry has an implementing class. -/
inductive DetectionProblem where
  | resolutionFailed (problem : ResolutionFailed)
  | implClassMissing
  deriving DecidableEq, Repr

abbrev Detecting := StateT Detection (Except DetectionProblem)

variable (p : Program)

def getPublicApis (sc : SootClass) : List String :=
  KeyedSets.addAll id [] (((p.methods sc).filter (·.isPublic)).map (·.subSignature))

def analysisOneFunction (mtd : SootMethod) : Detecting Bool := do
  let cg : SearchState := { containExitPoint := !checkExitPointExtractly }
  match (analysisEntryPoint p callGraphLev mtd).run cg with
  | .error problem => throw (.resolutionFailed problem)
  | .ok (some vul, _) =>
    modify fun d => { d with vulMap := d.vulMap.insert mtd vul }
    pure true
  | .ok (none, _) => pure false

def analysisImplMethod (methods : List String) (mtd : SootMethod) : Detecting Unit := do
  if mtd.subSignature ∈ methods then
    if ← analysisOneFunction p mtd then
      modify fun d => { d with vulSet := KeyedSets.add id d.vulSet mtd }

def analysisImplClass (sc : SootClass) (inf : Option SootClass) : Detecting Unit :=
  let methods := match inf with
    | some inf => getPublicApis p inf
    | none => getPublicApis p sc
  (p.methods sc).forM (analysisImplMethod p methods)

def analysisHelperMethod (mtd : SootMethod) : Detecting Unit := do
  if mtd.isPublic ∧ mtd.isConcrete then
    match findVulIPCCall p (← get).vulSet mtd with
    | .error problem => throw (.resolutionFailed problem)
    | .ok (some _) => modify fun d => { d with helperVulSet := KeyedSets.add id d.helperVulSet mtd }
    | .ok none => pure ()

def analysisHelperClass (sc : SootClass) : Detecting Unit := (p.methods sc).forM (analysisHelperMethod p)

def analysisService (api : ServiceApiClass) : Detecting Unit :=
  if api.isHelperClass then pure ()
  else match api.implClass with
    | some implClass => analysisImplClass p implClass api.inf
    | none => throw .implClassMissing

def analysisHelper (api : ServiceApiClass) : Detecting Unit :=
  match api.helperClass with
  | some helperClass => analysisHelperClass p helperClass
  | none => pure ()

/-- The two passes over the entries, in the order in which the set iterates.
The report that is printed afterwards reads the results and changes none. -/
def detectingVul (apiList : List ServiceApiClass) : Detecting Unit := do
  apiList.forM (analysisService p)
  apiList.forM (analysisHelper p)

/-! ## What the passes find -/

/-- A fresh search from the method reports a vulnerability. -/
def Vulnerable (mtd : SootMethod) : Prop :=
  ∃ vul final, freshAnalysis p callGraphLev mtd = .ok (some vul, final)

/-- The entry is a service, and the method implements a public method of its
interface, or of its class where it has no interface. -/
def Implements (api : ServiceApiClass) (mtd : SootMethod) : Prop :=
  api.helperClass = none ∧ ∃ implClass, api.implClass = some implClass ∧ mtd ∈ p.methods implClass ∧
    ∃ declared ∈ p.methods (api.inf.getD implClass), declared.isPublic = true ∧ declared.subSignature = mtd.subSignature

/-- The entry is a helper that declares the method public and concrete. -/
def Helps (api : ServiceApiClass) (mtd : SootMethod) : Prop :=
  ∃ helperClass, api.helperClass = some helperClass ∧ mtd ∈ p.methods helperClass ∧
    mtd.isPublic = true ∧ mtd.isConcrete = true

/-- One collection of the detection gains exactly the methods found, another
one stays as it is. -/
def Gains (kept grown : Detection → List SootMethod) (found : SootMethod → Prop) (d next : Detection) : Prop :=
  kept next = kept d ∧ ∀ mtd, mtd ∈ grown next ↔ mtd ∈ grown d ∨ found mtd

variable {p}

theorem gains_nothing (absent : ∀ mtd, ¬ found mtd) (d : Detection) : Gains kept grown found d d :=
  ⟨rfl, fun mtd => by simp [absent mtd]⟩

/-- A loop gains what its rounds gain, as long as each round leaves the other
collection alone. -/
theorem each_gains {body : β → Detecting Unit} {found : β → SootMethod → Prop}
    (round : ∀ item d next, kept d = old → body item d = .ok ((), next) → Gains kept grown (found item) d next)
    (items : List β) (start : kept d = old) (ran : items.forM body d = .ok ((), final)) :
    Gains kept grown (fun mtd => ∃ item ∈ items, found item mtd) d final := by
  refine each_invariant (fun done reached => Gains kept grown (fun mtd => ∃ item ∈ done, found item mtd) d reached)
    ?_ items [] (gains_nothing (by simp) d) ran
  rintro before item reached next ⟨same, grew⟩ ran
  obtain ⟨still, more⟩ := round item reached next (same.trans start) ran
  refine ⟨still.trans same, fun mtd => ?_⟩
  rw [more, grew, or_assoc]
  refine or_congr Iff.rfl ?_
  simp [or_and_right, exists_or]

theorem mem_getPublicApis (sc : SootClass) (signature : String) :
    signature ∈ getPublicApis p sc ↔ ∃ mtd ∈ p.methods sc, mtd.isPublic = true ∧ mtd.subSignature = signature := by
  simp [getPublicApis, KeyedSets.mem_addAll, and_assoc]

theorem analysisOneFunction_cases (p : Program) (mtd : SootMethod) (d : Detection) :
    (∃ vul st, freshAnalysis p callGraphLev mtd = .ok (some vul, st) ∧
      analysisOneFunction p mtd d = .ok (true, { d with vulMap := d.vulMap.insert mtd vul })) ∨
    (∃ st, freshAnalysis p callGraphLev mtd = .ok (none, st) ∧ analysisOneFunction p mtd d = .ok (false, d)) ∨
    ∃ problem, freshAnalysis p callGraphLev mtd = .error problem ∧
      analysisOneFunction p mtd d = .error (.resolutionFailed problem) := by
  have fresh : (analysisEntryPoint p callGraphLev mtd).run { containExitPoint := !checkExitPointExtractly } =
      freshAnalysis p callGraphLev mtd := rfl
  unfold analysisOneFunction
  rw [fresh]
  rcases freshAnalysis p callGraphLev mtd with problem | ⟨_ | vul, st⟩
  · exact .inr (.inr ⟨problem, rfl, rfl⟩)
  · exact .inr (.inl ⟨st, rfl, rfl⟩)
  · exact .inl ⟨vul, st, rfl, rfl⟩

/-- What the check of one method of a service does: nothing, unless a search from
a listed method reports a vulnerability or fails. -/
theorem analysisImplMethod_cases (p : Program) (methods : List String) (mtd : SootMethod) (d : Detection) :
    (mtd.subSignature ∈ methods ∧ (∃ vul st, freshAnalysis p callGraphLev mtd = .ok (some vul, st) ∧
      analysisImplMethod p methods mtd d =
        .ok ((), { d with vulMap := d.vulMap.insert mtd vul, vulSet := KeyedSets.add id d.vulSet mtd }))) ∨
    ((mtd.subSignature ∈ methods → ∃ st, freshAnalysis p callGraphLev mtd = .ok (none, st)) ∧
      analysisImplMethod p methods mtd d = .ok ((), d)) ∨
    mtd.subSignature ∈ methods ∧ ∃ problem, freshAnalysis p callGraphLev mtd = .error problem ∧
      analysisImplMethod p methods mtd d = .error (.resolutionFailed problem) := by
  unfold analysisImplMethod
  by_cases listed : mtd.subSignature ∈ methods
  · rw [if_pos listed]
    simp only [bind, StateT.bind, Except.bind]
    rcases analysisOneFunction_cases p mtd d with ⟨vul, st, found, verdict⟩ | ⟨st, quiet, verdict⟩ | ⟨problem, fails, verdict⟩
    · rw [verdict]
      exact .inl ⟨listed, vul, st, found, rfl⟩
    · rw [verdict]
      exact .inr (.inl ⟨fun _ => ⟨st, quiet⟩, rfl⟩)
    · rw [verdict]
      exact .inr (.inr ⟨listed, problem, fails, rfl⟩)
  · rw [if_neg listed]
    exact .inr (.inl ⟨fun here => absurd here listed, rfl⟩)

theorem analysisImplMethod_gains (ran : analysisImplMethod p methods mtd d = .ok ((), next)) :
    Gains Detection.helperVulSet Detection.vulSet (fun m => m = mtd ∧ mtd.subSignature ∈ methods ∧ Vulnerable p mtd) d next := by
  rcases analysisImplMethod_cases p methods mtd d with ⟨listed, vul, st, found, step⟩ | ⟨quiet, step⟩ | ⟨_, _, _, step⟩
  · rw [step] at ran
    cases ran
    refine ⟨rfl, fun m => ?_⟩
    have vulnerable : Vulnerable p mtd := ⟨vul, st, found⟩
    simp [KeyedSets.mem_add, listed, vulnerable]
  · rw [step] at ran
    cases ran
    refine gains_nothing (fun m found => ?_) d
    obtain ⟨_, listed, vul, final, found⟩ := found
    obtain ⟨st, nothing⟩ := quiet listed
    rw [nothing] at found
    cases found
  · rw [step] at ran
    cases ran

theorem analysisService_gains (ran : analysisService p api d = .ok ((), next)) :
    Gains Detection.helperVulSet Detection.vulSet (fun m => Implements p api m ∧ Vulnerable p m) d next := by
  unfold analysisService at ran
  split at ran
  · rename_i helper
    cases ran
    obtain ⟨helperClass, named⟩ := Option.isSome_iff_exists.mp helper
    refine gains_nothing (fun m found => ?_) d
    have service := found.1.1
    rw [named] at service
    cases service
  · rename_i service
    have noHelper : api.helperClass = none := by simpa [ServiceApiClass.isHelperClass] using service
    cases implemented : api.implClass with
    | none =>
      rw [implemented] at ran
      cases ran
    | some implClass =>
      rw [implemented] at ran
      have methods : (match api.inf with
          | some inf => getPublicApis p inf
          | none => getPublicApis p implClass) = getPublicApis p (api.inf.getD implClass) := by
        cases api.inf <;> rfl
      simp only [analysisImplClass, methods] at ran
      obtain ⟨same, grew⟩ := each_gains (fun _ _ _ _ ran => analysisImplMethod_gains ran) (p.methods implClass) rfl ran
      refine ⟨same, fun m => (grew m).trans (or_congr Iff.rfl ?_)⟩
      constructor
      · rintro ⟨mtd, declared, rfl, listed, vulnerable⟩
        exact ⟨⟨noHelper, implClass, implemented, declared, (mem_getPublicApis _ _).mp listed⟩, vulnerable⟩
      · rintro ⟨⟨_, other, named, declared, listed⟩, vulnerable⟩
        rw [implemented] at named
        cases named
        exact ⟨m, declared, rfl, (mem_getPublicApis _ _).mpr listed, vulnerable⟩

/-- What the check of one method of a helper does: nothing, unless a search from
a visible method finds a call or fails. -/
theorem analysisHelperMethod_cases (p : Program) (mtd : SootMethod) (d : Detection) :
    ((mtd.isPublic ∧ mtd.isConcrete) ∧ (∃ called, findVulIPCCall p d.vulSet mtd = .ok (some called)) ∧
      analysisHelperMethod p mtd d = .ok ((), { d with helperVulSet := KeyedSets.add id d.helperVulSet mtd })) ∨
    (¬ ((mtd.isPublic ∧ mtd.isConcrete) ∧ ∃ called, findVulIPCCall p d.vulSet mtd = .ok (some called)) ∧
      analysisHelperMethod p mtd d = .ok ((), d)) ∨
    ∃ problem, findVulIPCCall p d.vulSet mtd = .error problem ∧
      analysisHelperMethod p mtd d = .error (.resolutionFailed problem) := by
  unfold analysisHelperMethod
  by_cases visible : mtd.isPublic ∧ mtd.isConcrete
  · rw [if_pos visible]
    simp only [bind, StateT.bind, Except.bind, get, getThe, MonadStateOf.get, StateT.get, pure, Except.pure]
    cases searched : findVulIPCCall p d.vulSet mtd with
    | error problem => exact .inr (.inr ⟨problem, rfl, rfl⟩)
    | ok found =>
      cases found with
      | none => exact .inr (.inl ⟨by simp, rfl⟩)
      | some called => exact .inl ⟨visible, ⟨called, rfl⟩, rfl⟩
  · rw [if_neg visible]
    exact .inr (.inl ⟨fun found => visible found.1, rfl⟩)

theorem analysisHelperMethod_gains (vulSet : List SootMethod) (known : d.vulSet = vulSet)
    (ran : analysisHelperMethod p mtd d = .ok ((), next)) : Gains Detection.vulSet Detection.helperVulSet
      (fun m => m = mtd ∧ (mtd.isPublic = true ∧ mtd.isConcrete = true) ∧
        ∃ called, findVulIPCCall p vulSet mtd = .ok (some called)) d next := by
  subst known
  rcases analysisHelperMethod_cases p mtd d with ⟨visible, finds, step⟩ | ⟨quiet, step⟩ | ⟨_, _, step⟩
  · rw [step] at ran
    cases ran
    refine ⟨rfl, fun m => ?_⟩
    simp [KeyedSets.mem_add, visible, finds]
  · rw [step] at ran
    cases ran
    exact gains_nothing (fun m found => quiet found.2) d
  · rw [step] at ran
    cases ran

theorem analysisHelper_gains (vulSet : List SootMethod) (known : d.vulSet = vulSet)
    (ran : analysisHelper p api d = .ok ((), next)) : Gains Detection.vulSet Detection.helperVulSet
      (fun m => Helps p api m ∧ ∃ called, findVulIPCCall p vulSet m = .ok (some called)) d next := by
  unfold analysisHelper at ran
  cases helper : api.helperClass with
  | none =>
    rw [helper] at ran
    cases ran
    refine gains_nothing (fun m found => ?_) d
    obtain ⟨⟨helperClass, named, _⟩, _⟩ := found
    rw [helper] at named
    cases named
  | some helperClass =>
    rw [helper] at ran
    obtain ⟨same, grew⟩ :=
      each_gains (fun _ _ _ known ran => analysisHelperMethod_gains vulSet known ran) (p.methods helperClass) known ran
    refine ⟨same, fun m => (grew m).trans (or_congr Iff.rfl ?_)⟩
    constructor
    · rintro ⟨mtd, declared, rfl, visible, found⟩
      exact ⟨⟨helperClass, helper, declared, visible⟩, found⟩
    · rintro ⟨⟨other, named, declared, visible⟩, found⟩
      rw [helper] at named
      cases named
      exact ⟨m, declared, rfl, visible, found⟩

/-- The first pass fills one set, and the second the other. -/
theorem detection_finds (ran : detectingVul p apiList {} = .ok ((), final)) :
    (∀ mtd, mtd ∈ final.vulSet ↔ ∃ api ∈ apiList, Implements p api mtd ∧ Vulnerable p mtd) ∧
    ∀ mtd, mtd ∈ final.helperVulSet ↔
      ∃ api ∈ apiList, Helps p api mtd ∧ ∃ called, findVulIPCCall p final.vulSet mtd = .ok (some called) := by
  obtain ⟨_, middle, services, helpers⟩ := state_bind_ok.mp ran
  obtain ⟨none, found⟩ := each_gains (fun _ _ _ _ ran => analysisService_gains ran) apiList rfl services
  obtain ⟨same, led⟩ :=
    each_gains (fun _ _ _ known ran => analysisHelper_gains middle.vulSet known ran) apiList rfl helpers
  rw [none] at led
  rw [same]
  exact ⟨fun mtd => by simpa using found mtd, fun mtd => by simpa using led mtd⟩

/-! ## Detection ends without an exception -/

theorem analysisImplMethod_total (resolve : MethodsResolve p) (methods : List String) (mtd : SootMethod)
    (d : Detection) : ∃ reply, analysisImplMethod p methods mtd d = .ok reply := by
  rcases analysisImplMethod_cases p methods mtd d with ⟨_, _, _, _, step⟩ | ⟨_, step⟩ | ⟨_, problem, fails, _⟩
  · exact ⟨_, step⟩
  · exact ⟨_, step⟩
  · obtain ⟨reply, ended⟩ := CallGraphVerdict.freshAnalysis_total resolve callGraphLev mtd
    rw [ended] at fails
    cases fails

theorem analysisService_total (resolve : MethodsResolve p)
    (implemented : api.helperClass = none → ∃ implClass, api.implClass = some implClass) (d : Detection) :
    ∃ reply, analysisService p api d = .ok reply := by
  unfold analysisService
  split
  · exact ⟨_, rfl⟩
  · rename_i service
    obtain ⟨implClass, named⟩ := implemented (by simpa [ServiceApiClass.isHelperClass] using service)
    rw [named]
    exact each_total _ (fun mtd _ => analysisImplMethod_total resolve _ mtd) d

theorem analysisHelperMethod_total (resolve : MethodsResolve p) (mtd : SootMethod) (d : Detection) :
    ∃ reply, analysisHelperMethod p mtd d = .ok reply := by
  rcases analysisHelperMethod_cases p mtd d with ⟨_, _, step⟩ | ⟨_, step⟩ | ⟨problem, fails, _⟩
  · exact ⟨_, step⟩
  · exact ⟨_, step⟩
  · obtain ⟨found, ended⟩ := searchCalled_total resolve d.vulSet 3 mtd
    rw [findVulIPCCall, ended] at fails
    cases fails

theorem analysisHelper_total (resolve : MethodsResolve p) (api : ServiceApiClass) (d : Detection) :
    ∃ reply, analysisHelper p api d = .ok reply := by
  unfold analysisHelper
  cases api.helperClass with
  | none => exact ⟨_, rfl⟩
  | some helperClass => exact each_total _ (fun mtd _ => analysisHelperMethod_total resolve mtd) d

/-- Whenever detection ends, in whatever order the entries come, the two sets
are the ones described; and it ends where methods resolve and every service
entry has its implementing class. -/
theorem detectingVul_exact (p : Program) (apiList : List ServiceApiClass) :
    (∀ final, detectingVul p apiList {} = .ok ((), final) →
      (∀ mtd, mtd ∈ final.vulSet ↔ ∃ api ∈ apiList, Implements p api mtd ∧ Vulnerable p mtd) ∧
      ∀ mtd, mtd ∈ final.helperVulSet ↔
        ∃ api ∈ apiList, Helps p api mtd ∧ ∃ called, findVulIPCCall p final.vulSet mtd = .ok (some called)) ∧
    (MethodsResolve p → (∀ api ∈ apiList, api.helperClass = none → ∃ implClass, api.implClass = some implClass) →
      ∃ final, detectingVul p apiList {} = .ok ((), final)) := by
  refine ⟨fun final ran => detection_finds ran, ?_⟩
  intro resolve implemented
  obtain ⟨⟨_, middle⟩, first⟩ :=
    each_total apiList (fun api member => analysisService_total resolve (implemented api member)) {}
  obtain ⟨⟨_, final⟩, second⟩ := each_total apiList (fun api _ => analysisHelper_total resolve api) middle
  refine ⟨final, ?_⟩
  simp only [detectingVul, bind, StateT.bind, Except.bind, first]
  exact second

end JgreAnalysis.VulnerabilitiesDetecting
