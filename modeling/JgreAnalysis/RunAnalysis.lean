import JgreAnalysis.RegistryEntries
import JgreAnalysis.ReportedDetails
import JgreAnalysis.ServiceExtraction

/-! A whole run of the analyzer: the extraction of the registry, its record, and
the detection over it. What the run leaves is told from the framework alone, as
far as the registry of helpers can be read. -/
namespace JgreAnalysis.RunAnalysis
open SootModel FrameworkScene ServiceApi ServiceHelperExtractor ServiceImplExtractor ServiceRegistry
open VulnerabilitiesDetecting DetectionReports AnalysisHelperApi ReportedDetails ServiceRegistrations ServiceExtraction
open LoopLaws

/-! ## The run -/

/-- An item of the record. The classes are texts, empty where there is none. -/
structure ApiData where
  helperClass : String
  inf : String
  implClass : String
  managerName : Option String
  serviceName : Option String
  deriving DecidableEq, Repr

def className (cls : Option SootClass) : String := (cls.map SootClass.name).getD ""

def getDataClass (api : ServiceApiClass) : ApiData :=
  { helperClass := className api.helperClass, inf := className api.inf, implClass := className api.implClass
    managerName := api.managerName, serviceName := api.serviceName }

variable (f : Framework) (machine : Machine) (orders : ReportOrders) (dataOrder : HashOrder ApiData)

/-- The items of `service_api.json`. Each is a new object, and their set keeps all
of them. -/
def saveResults (allApi : List ApiNode) : List ApiData :=
  dataOrder.arrange ((machine.nodeOrder.arrange allApi).map fun node => getDataClass node.object.value)

inductive AnalysisProblem where
  | extraction (problem : ExtractionProblem)
  | detecting (problem : RunProblem)
  deriving DecidableEq, Repr

structure Outcome where
  serviceApiJson : List ApiData
  result : RunResult

/-- `runIPCExtractor` and `runDetecting` after it, over the registry that they
share. -/
def runAnalysis (rounds : ℕ) : Except AnalysisProblem Outcome := do
  let allApi ← (extractIPCMethods f machine rounds).mapError .extraction
  let serviceApiJson := saveResults machine dataOrder allApi
  let result ← (runDetecting f machine orders allApi).mapError .detecting
  pure { serviceApiJson, result }

/-! ## What a run leaves -/

/-- The methods that a helper offers. -/
def helperApis (api : ServiceApiClass) : ℕ :=
  match api.helperClass with
  | some helperClass => (f.methods helperClass).countP fun mtd => mtd.isPublic && mtd.isConcrete
  | none => 0

/-- The methods of the interface of a service, or of its class where it has none. -/
def serviceApis (api : ServiceApiClass) : ℕ :=
  match api.inf <|> api.implClass with
  | some inf => (f.methods inf).countP f.isAbstract
  | none => 0

/-- The counts of a registry of helpers and services. -/
def tally (helpers services : List ServiceApiClass) : Counts :=
  { helperCnt := helpers.length, implCnt := services.length
    helperApiNum := (helpers.map (helperApis f)).sum, implApiNum := (services.map (serviceApis f)).sum }

/-- The method is one of those that the service is called through: its signature is
that of a public method of the interface, or of the class where the class is one
itself. -/
def Offers (interfaceOf : SootClass → SootClass) (cls : SootClass) (mtd : SootMethod) : Prop :=
  mtd ∈ f.methods cls ∧ ∃ declared ∈ f.methods (if f.isInterface cls then cls else interfaceOf cls),
    declared.isPublic = true ∧ declared.subSignature = mtd.subSignature

variable {f machine orders dataOrder}

/-- A registry holds the entries that it was extracted from, once each. -/
theorem registry_values (machine : Machine) (helping : findRegisteredServiceHelperClass f = .ok helpers)
    (serving : extractServiceImpl f rounds = .ok services) : ∃ allApi, extractIPCMethods f machine rounds = .ok allApi ∧
      (allApi.map (·.object.value)).Perm (helpers ++ services) := by
  have extracted : extractIPCMethods f machine rounds = .ok (addServiceApiList machine
      (addServiceApiList machine [] (allocate 0 helpers)) (allocate helpers.length services)) := by
    simp only [extractIPCMethods, helping, serving]
    rfl
  refine ⟨_, extracted, ?_⟩
  obtain ⟨memory, helpers', services', helping', serving', stored, same⟩ := RegistryEntries.extracted_results extracted
  obtain rfl := Except.ok.inj (helping.symm.trans helping')
  obtain rfl := Except.ok.inj (serving.symm.trans serving')
  obtain ⟨kept, ran, once, members⟩ := RegistryEntries.addResults_places machine memory
    [List.range' 0 helpers.length, List.range' helpers.length services.length]
  have places : kept.Perm (List.range (helpers ++ services).length) := by
    refine (List.perm_ext_iff_of_nodup once List.nodup_range).mpr fun id => ?_
    rw [members, List.mem_range, List.length_append]
    simp only [List.flatten_cons, List.flatten_nil, List.append_nil, List.mem_append, List.mem_range'_1]
    omega
  have read : (List.range (helpers ++ services).length).map memory = helpers ++ services := by
    refine List.ext_getElem (by simp) fun id _ inside => ?_
    rw [List.getElem_map, List.getElem_range, stored, List.getD_eq_getElem?_getD, List.getElem?_eq_getElem inside]
    rfl
  rw [same, ran, List.map_map]
  exact read ▸ places.map memory

/-- One entry adds one to the number of its kind, and its methods to theirs. -/
theorem counted_eq (kind : OneKind api) (counts : Counts) : counted f api counts =
    { helperCnt := counts.helperCnt + if api.isHelperClass then 1 else 0
      implCnt := counts.implCnt + if api.isHelperClass then 0 else 1
      helperApiNum := counts.helperApiNum + helperApis f api
      implApiNum := counts.implApiNum + if api.isHelperClass then 0 else serviceApis f api } := by
  unfold counted completed helperApis serviceApis ServiceApiClass.isHelperClass
  rcases kind with ⟨helper, service⟩ | ⟨noHelper, service⟩
  · obtain ⟨helperClass, named⟩ := Option.isSome_iff_exists.mp helper
    simp [named, countHelper]
  · obtain ⟨implClass, implemented⟩ := Option.isSome_iff_exists.mp service
    cases interface : api.inf <;> simp [noHelper, implemented, interface, countImpl]

theorem foldl_counted {apis : List ServiceApiClass} (kinds : ∀ api ∈ apis, OneKind api) (counts : Counts) :
    apis.foldl (fun counts api => counted f api counts) counts =
      { helperCnt := counts.helperCnt + apis.countP (·.isHelperClass)
        implCnt := counts.implCnt + apis.countP (!·.isHelperClass)
        helperApiNum := counts.helperApiNum + (apis.map (helperApis f)).sum
        implApiNum := counts.implApiNum + (apis.map fun api => if api.isHelperClass then 0 else serviceApis f api).sum } := by
  induction apis generalizing counts with
  | nil => rfl
  | cons api apis ih =>
    obtain ⟨kind, rest⟩ := List.forall_mem_cons.mp kinds
    rw [List.foldl_cons, ih rest, counted_eq kind]
    cases helper : api.isHelperClass <;> simp [helper, Nat.add_assoc, Nat.add_comm 1]

/-- The counts of a report are those of the registry, in whatever order it meets
the entries. -/
theorem tally_ok (f : Framework) (order : HashOrder ApiNode) {allApi : List ApiNode}
    (kinds : ∀ node ∈ allApi, OneKind node.object.value)
    (held : (allApi.map (·.object.value)).Perm (helpers ++ services))
    (helper : ∀ api ∈ helpers, api.helperClass.isSome = true) (service : ∀ api ∈ services, api.helperClass = none) :
    ∃ entries, simpleReport f (order.arrange allApi) = .ok (entries, tally f helpers services) := by
  have arranged : ∀ node ∈ order.arrange allApi, OneKind node.object.value :=
    fun node member => kinds node (order.mem_arrange.mp member)
  refine ⟨_, (simpleReport_ok arranged).trans (congrArg (fun counts => Except.ok (_, counts)) ?_)⟩
  have shown : ((order.arrange allApi).map (·.object.value)).Perm (helpers ++ services) :=
    ((order.arrange_perm allApi).map _).trans held
  have counting := foldl_counted (f := f) (List.forall_mem_map.mpr arranged) {}
  rw [List.foldl_map, shown.countP_eq, shown.countP_eq, (shown.map _).sum_eq, (shown.map _).sum_eq] at counting
  have notHelper (api : ServiceApiClass) (listed : api ∈ services) : api.isHelperClass = false := by
    simp [ServiceApiClass.isHelperClass, service api listed]
  have helperMethods : services.map (helperApis f) = services.map fun _ => 0 :=
    List.map_congr_left fun api listed => by simp [helperApis, service api listed]
  have serviceMethods : services.map (fun api => if api.isHelperClass then 0 else serviceApis f api) =
      services.map (serviceApis f) :=
    List.map_congr_left fun api listed => by simp [notHelper api listed]
  have noServices : helpers.map (fun api => if api.isHelperClass then 0 else serviceApis f api) = helpers.map fun _ => 0 :=
    List.map_congr_left fun api listed => if_pos (helper api listed)
  have helperCnt : helpers.countP (·.isHelperClass) = helpers.length := List.countP_eq_length.mpr helper
  have noHelperCnt : services.countP (·.isHelperClass) = 0 :=
    List.countP_eq_zero.mpr fun api listed => by simp [notHelper api listed]
  have implCnt : services.countP (!·.isHelperClass) = services.length :=
    List.countP_eq_length.mpr fun api listed => by simp [notHelper api listed]
  have noImplCnt : helpers.countP (!·.isHelperClass) = 0 :=
    List.countP_eq_zero.mpr fun api listed => by simp [ServiceApiClass.isHelperClass, helper api listed]
  simp [counting, tally, helperMethods, serviceMethods, noServices, helperCnt, noHelperCnt, implCnt, noImplCnt]

theorem mem_serviceEntries (interfaceOf : SootClass → SootClass) (api : ServiceApiClass) :
    api ∈ serviceEntries f interfaceOf ↔ ∃ site ∈ serviceSites f, ∃ cls, CallSite.implementedBy f site = some cls ∧
      withInterface f interfaceOf (site.service cls) = api := by
  simp only [serviceEntries, List.mem_filterMap, Option.map_eq_some_iff]

/-- What a service implements is what its class offers behind its interface. -/
theorem implements_entry (interfaceOf : SootClass → SootClass) (site : CallSite) (cls : SootClass) (mtd : SootMethod) :
    Implements f.toProgram (withInterface f interfaceOf (site.service cls)) mtd ↔ Offers f interfaceOf cls mtd := by
  have behind : (withInterface f interfaceOf (site.service cls)).inf.getD cls =
      if f.isInterface cls then cls else interfaceOf cls := by
    simp only [withInterface, CallSite.service, Option.bind_some]
    split <;> rfl
  unfold Implements Offers
  constructor
  · rintro ⟨_, implClass, same, inside, offered⟩
    cases same
    exact ⟨inside, behind ▸ offered⟩
  · rintro ⟨inside, offered⟩
    exact ⟨rfl, cls, rfl, inside, behind.symm ▸ offered⟩

/-- Detection ends where methods resolve and every service has its class. -/
theorem detection_ends {p : Program} (resolve : MethodsResolve p) {apiList : List ServiceApiClass}
    (kinds : ∀ api ∈ apiList, OneKind api) : ∃ d, detectingVul p apiList {} = .ok ((), d) := by
  have implemented (api : ServiceApiClass) (listed : api ∈ apiList) (service : api.helperClass = none) :
      ∃ implClass, api.implClass = some implClass := by
    rcases kinds api listed with ⟨helper, _⟩ | ⟨_, implClass⟩
    · simp [service] at helper
    · exact Option.isSome_iff_exists.mp implClass
  obtain ⟨⟨_, middle⟩, services⟩ :=
    each_total apiList (fun api listed => analysisService_total resolve (implemented api listed)) {}
  obtain ⟨⟨_, d⟩, helpers⟩ := each_total apiList (fun api _ => analysisHelper_total resolve api) middle
  exact ⟨d, state_bind_ok.mpr ⟨(), middle, services, helpers⟩⟩

/-- A run ends once the registry of helpers can be read. Its record has the
registered helpers and services; the methods reported are those offered by a
service from which a search reports a vulnerability, and the helper methods that
lead to one of them; and the counts are those of the registry. -/
theorem runAnalysis_exact (a : AndroidFramework) (machine : Machine) (orders : ReportOrders)
    (dataOrder : HashOrder ApiData) (registry : findRegisteredServiceHelperClass a.toFramework = .ok helpers) :
    ∃ enough, ∀ rounds ≥ enough, ∃ outcome interfaceOf,
      runAnalysis a.toFramework machine orders dataOrder rounds = .ok outcome ∧
      (∀ site ∈ serviceSites a.toFramework, ∀ cls, CallSite.implementedBy a.toFramework site = some cls →
        StandsBehind a.toFramework cls (interfaceOf cls)) ∧
      outcome.serviceApiJson.Perm ((helpers ++ serviceEntries a.toFramework interfaceOf).map getDataClass) ∧
      (∀ mtd, mtd ∈ outcome.result.detection.vulSet ↔ Vulnerable a.toProgram mtd ∧ ∃ site ∈ serviceSites a.toFramework,
        ∃ cls, CallSite.implementedBy a.toFramework site = some cls ∧ Offers a.toFramework interfaceOf cls mtd) ∧
      (∀ mtd, mtd ∈ outcome.result.detection.helperVulSet ↔ ∃ api ∈ helpers, Helps a.toProgram api mtd ∧
        ∃ called, findVulIPCCall a.toProgram outcome.result.detection.vulSet mtd = .ok (some called)) ∧
      outcome.result.counts = tally a.toFramework helpers (serviceEntries a.toFramework interfaceOf) := by
  obtain ⟨enough, serves⟩ := services_ok a
  refine ⟨enough, fun rounds more => ?_⟩
  obtain ⟨services, interfaceOf, serving, entries, behind⟩ := serves rounds more
  obtain ⟨allApi, extracted, held⟩ := registry_values machine registry serving
  obtain ⟨kinds, _⟩ := extracted_kinds extracted
  have registered := held.trans (entries.append_left helpers)
  have shown := ((machine.nodeOrder.arrange_perm allApi).map (·.object.value)).trans registered
  have resolve : MethodsResolve a.toProgram := fun mtd u inside inv invoked _ =>
    a.invokes_resolve mtd inv (List.mem_filterMap.mpr ⟨u, inside, invoked⟩)
  obtain ⟨d, detected⟩ := detection_ends resolve
    (List.forall_mem_map.mpr fun node member => kinds node (machine.nodeOrder.mem_arrange.mp member))
  obtain ⟨⟨text, summary⟩, items, detail⟩ := reports_written orders detected
  have service (api : ServiceApiClass) (listed : api ∈ serviceEntries a.toFramework interfaceOf) :
      api.helperClass = none := by
    obtain ⟨site, _, cls, _, rfl⟩ := (mem_serviceEntries interfaceOf api).mp listed
    rfl
  obtain ⟨completed, reported⟩ := tally_ok a.toFramework machine.nodeOrder kinds registered
    (fun api listed => (helpers_only registry listed).1) service
  let result : RunResult :=
    { detection := d, resultsTxt := text, resultsJson := items, allApi := completed
      counts := tally a.toFramework helpers (serviceEntries a.toFramework interfaceOf) }
  have ran : runDetecting a.toFramework machine orders allApi = .ok result := by
    refine bind_ok.mpr ⟨((), d), mapError_ok.mpr detected, mapError_ok.mpr ?_⟩
    exact bind_ok.mpr ⟨text, summary, bind_ok.mpr ⟨items, detail, bind_ok.mpr ⟨_, reported, rfl⟩⟩⟩
  obtain ⟨found, led⟩ := detection_finds detected
  refine ⟨⟨saveResults machine dataOrder allApi, result⟩, interfaceOf, ?_, behind, ?_, fun mtd => ?_, fun mtd => ?_, rfl⟩
  · exact bind_ok.mpr ⟨allApi, mapError_ok.mpr extracted, bind_ok.mpr ⟨_, mapError_ok.mpr ran, rfl⟩⟩
  · refine (dataOrder.arrange_perm _).trans ?_
    simpa only [List.map_map, Function.comp_def] using shown.map getDataClass
  · rw [found]
    simp only [shown.mem_iff, List.mem_append]
    constructor
    · rintro ⟨api, helper | listed, implements_, vulnerable⟩
      · have named := (helpers_only registry helper).1
        rw [implements_.1] at named
        cases named
      · obtain ⟨site, taken, cls, known, rfl⟩ := (mem_serviceEntries interfaceOf api).mp listed
        exact ⟨vulnerable, site, taken, cls, known, (implements_entry interfaceOf site cls mtd).mp implements_⟩
    · rintro ⟨vulnerable, site, taken, cls, known, offers⟩
      exact ⟨_, .inr ((mem_serviceEntries interfaceOf _).mpr ⟨site, taken, cls, known, rfl⟩),
        (implements_entry interfaceOf site cls mtd).mpr offers, vulnerable⟩
  · rw [led]
    simp only [shown.mem_iff, List.mem_append]
    constructor
    · rintro ⟨api, helper | listed, helps, calls⟩
      · exact ⟨api, helper, helps, calls⟩
      · obtain ⟨helperClass, named, _⟩ := helps
        rw [service api listed] at named
        cases named
    · rintro ⟨api, helper, helps, calls⟩
      exact ⟨api, .inl helper, helps, calls⟩

/-! ## A small run

The small framework of the reports, with an interface in front of its service and
a helper that calls it. -/

def kService : SootClass := ⟨"Service"⟩
def kIService : SootClass := ⟨"IService"⟩

def servingMethods : List SootMethod :=
  listeningMethods ++
    [{ declaringClass := kIService, name := "declared", subSignature := "listen" },
      { declaringClass := ⟨"Manager"⟩, name := "watch", subSignature := "watch" }]

def servingBodies (name : String) : List Stmt :=
  if name = "watch" then [invocation (.interface ⟨"service", 0⟩) "IService" "listen" []] else listeningBodies name

def servingFramework : Framework :=
  let program : Program := { sampleProgram servingBodies with
    methods := fun cls => servingMethods.filter fun mtd => mtd.declaringClass = cls
    isInterface := fun cls => cls == kIService || cls == BinderHierarchy.IInterface
    interfaces := fun cls => if cls = kService then [kIService] else if cls = kIService then [BinderHierarchy.IInterface] else [] }
  { listening with
    toProgram := program
    isAbstract := fun mtd => mtd.declaringClass == kIService }

theorem servingBodies_plain (name : String) (u : Stmt) (inside : u ∈ servingBodies name) : isIdentity u = false := by
  have every : (servingBodies name).all (fun u => !isIdentity u) = true := by
    unfold servingBodies listeningBodies
    split
    · decide
    · split <;> decide
  simpa using List.all_eq_true.mp every u inside

theorem servingBodies_two (name : String) (expr : InvokeExpr) (inside : expr ∈ (servingBodies name).filterMap Stmt.invokeExpr?)
    (registering : expr.methodRef.name = "addService" ∨ expr.methodRef.name = "publishBinderService") :
    2 ≤ expr.args.length := by
  have every : ((servingBodies name).filterMap Stmt.invokeExpr?).all (fun expr =>
      !(expr.methodRef.name == "addService" || expr.methodRef.name == "publishBinderService") ||
        decide (2 ≤ expr.args.length)) = true := by
    unfold servingBodies listeningBodies
    split
    · decide
    · split <;> decide
  have two := List.all_eq_true.mp every expr inside
  rcases registering with named | named <;> simpa [named] using two

theorem serving_steps : BinderHierarchy.DirectSupertype servingFramework sc sup ↔
    (sc = kService ∧ sup = kIService) ∨ (sc = kIService ∧ sup = BinderHierarchy.IInterface) := by
  by_cases service : sc = kService
  · subst service
    simp [BinderHierarchy.DirectSupertype, BinderHierarchy.Extends, servingFramework, listening, sampleFramework,
      kService, kIService]
  · have differ : kIService ≠ kService := by decide
    by_cases stub : sc = kIService <;>
      simp [BinderHierarchy.DirectSupertype, BinderHierarchy.Extends, servingFramework, listening, sampleFramework,
        service, stub, differ]

def servingRank (sc : SootClass) : ℕ := ["android.os.IInterface", "IService", "Service"].idxOf sc.name

def serving : AndroidFramework where
  toFramework := servingFramework
  methods_distinct cls := by
    have distinct : servingMethods.Nodup := by decide
    exact List.Nodup.filter (fun mtd => decide (mtd.declaringClass = cls)) distinct
  identity_reference mtd leftOp expr inside := Bool.noConfusion (servingBodies_plain mtd.name _ inside)
  added_arguments mtd expr inside adds := by
    refine servingBodies_two mtd.name expr inside (.inl ?_)
    exact (by simpa [addsService, invokesMethod, servingFramework, sampleProgram] using adds :
      expr.methodRef.name = kServiceImplAddMtdName ∧ _).1
  published_arguments mtd expr inside published := by
    refine servingBodies_two mtd.name expr inside (.inr ?_)
    simpa [publishes, servingFramework, sampleProgram, kServiceImplPublishFunc] using published
  finite := by
    refine (List.finite_toSet [kService, kIService]).subset ?_
    rintro sc ⟨sup, step⟩
    rcases serving_steps.mp step with ⟨rfl, _⟩ | ⟨rfl, _⟩ <;> simp
  acyclic := by
    refine InterfaceClosure.acyclic_of_rank servingRank fun sc sup step => ?_
    rcases serving_steps.mp step with ⟨rfl, rfl⟩ | ⟨rfl, rfl⟩ <;> decide
  root sup step := by
    rcases serving_steps.mp step with ⟨same, _⟩ | ⟨same, _⟩ <;> revert same <;> decide
  interfaces_above sc inf listed := by
    rcases serving_steps.mp (.inr listed) with ⟨rfl, rfl⟩ | ⟨rfl, rfl⟩ <;> rfl
  classes_above sc sup listed := by
    cases listed
  invokes_resolve mtd expr inside := ⟨_, rfl⟩

def servingHelper : ServiceApiClass := { helperClass := some ⟨"Manager"⟩, managerName := some "listener" }

theorem serving_registry : findRegisteredServiceHelperClass serving.toFramework = .ok [servingHelper] := by
  decide +kernel

theorem runAnalysis_exact_serving : ∃ enough, ∀ rounds ≥ enough, ∃ outcome interfaceOf,
    runAnalysis serving.toFramework sampleMachine sampleOrders insertionOrder rounds = .ok outcome ∧
    (∀ site ∈ serviceSites serving.toFramework, ∀ cls, CallSite.implementedBy serving.toFramework site = some cls →
      StandsBehind serving.toFramework cls (interfaceOf cls)) ∧
    outcome.serviceApiJson.Perm (([servingHelper] ++ serviceEntries serving.toFramework interfaceOf).map getDataClass) ∧
    (∀ mtd, mtd ∈ outcome.result.detection.vulSet ↔ Vulnerable serving.toProgram mtd ∧
      ∃ site ∈ serviceSites serving.toFramework, ∃ cls, CallSite.implementedBy serving.toFramework site = some cls ∧
        Offers serving.toFramework interfaceOf cls mtd) ∧
    (∀ mtd, mtd ∈ outcome.result.detection.helperVulSet ↔ ∃ api ∈ [servingHelper], Helps serving.toProgram api mtd ∧
      ∃ called, findVulIPCCall serving.toProgram outcome.result.detection.vulSet mtd = .ok (some called)) ∧
    outcome.result.counts = tally serving.toFramework [servingHelper] (serviceEntries serving.toFramework interfaceOf) :=
  runAnalysis_exact serving sampleMachine sampleOrders insertionOrder serving_registry

/-- The service offers one method of its two, and the helper calls it. -/
example : ((runAnalysis serving.toFramework sampleMachine sampleOrders insertionOrder 5).toOption.map fun outcome =>
      (outcome.result.detection.vulSet, outcome.result.detection.helperVulSet, outcome.result.counts)) =
    some ([sampleMethod "listen"], [{ declaringClass := ⟨"Manager"⟩, name := "watch", subSignature := "watch" }],
      ⟨1, 1, 1, 1⟩) := by
  decide +kernel

end JgreAnalysis.RunAnalysis
