import JgreAnalysis.GroupedSets
import JgreAnalysis.ServiceRegistry
import JgreAnalysis.VulnerabilitiesDetecting

/-! What a run of the detection leaves behind: a summary and a detailed list of
the findings, each grouped by class from the map of findings, and the registry
that the closing report has completed. -/
namespace JgreAnalysis.DetectionReports
open SootModel ExitPointChecker FrameworkScene ServiceApi ServiceRegistry VulnerabilitiesDetecting
open LoopLaws StoredHashes GroupedSets

structure VulData where
  serviceName : String
  mtd : String
  listTag : String
  callChain : List String
  deriving DecidableEq, Repr

/-- The orders in which the sets of the reports iterate. -/
structure ReportOrders where
  textOrder : HashOrder String
  dataOrder : HashOrder VulData

variable (f : Framework) (machine : Machine) (orders : ReportOrders)

/-- `VulnerableApiDesc.getData`. A method's text is its signature. -/
def getData (vul : VulnerableApiDesc) : VulData where
  serviceName := ""
  mtd := (vul.entryPoint.map f.signature).getD "null"
  listTag := vul.listTag
  callChain := vul.callChain.map f.signature

def getServiceApiForImpl (allApi : List ServiceApiClass) (sc : SootClass) : Option ServiceApiClass :=
  allApi.find? fun api => api.implClass = some sc

/-- `vulMap.values`. -/
def values (d : Detection) : List VulnerableApiDesc :=
  (f.hashOrder.arrange d.vulMap.keys).filterMap fun mtd => d.vulMap.lookup mtd

/-- The findings by the class of their entry point, which must be known. -/
def groupByClass [DecidableEq α] (data : SootMethod → VulnerableApiDesc → α) (vuls : List VulnerableApiDesc) :
    Except NullPointer (Groups SootClass α) :=
  vuls.foldlM (fun results vul =>
    match vul.entryPoint with
    | some mtd => pure (put id results (mtd.declaringClass, data mtd vul))
    | none => throw ⟨⟩) ∅

/-- A template's text of a value that may be null. -/
def nullableText (value : Option String) : String := value.getD "null"

def summaryTitle (allApi : List ServiceApiClass) (cls : SootClass) : String :=
  match getServiceApiForImpl allApi cls with
  | some api => nullableText api.serviceName ++ " " ++ nullableText (api.inf.map SootClass.name)
  | none => cls.name

/-- The lines of one class: the title with the count, and the signatures. -/
def summaryBlock (title : String) (count : ℕ) (signatures : List String) : String :=
  title ++ " (" ++ toString count ++ ")\n" ++ String.join (signatures.map fun it => "\t" ++ it ++ "\n")

def helperSummary (d : Detection) : String :=
  "Vulnerabilities in Helper Class:\n" ++
    String.join ((f.hashOrder.arrange d.helperVulSet).map fun vul => "\t" ++ f.signature vul ++ "\n")

/-- The text of `results.txt`. -/
def saveSummary (allApi : List ServiceApiClass) (d : Detection) : Except NullPointer String := do
  let results ← groupByClass (fun mtd _ => f.signature mtd) (values f d)
  let blocks := (f.classOrder.arrange results.keys).map fun t =>
    let u := (results.lookup t).getD []
    summaryBlock (summaryTitle allApi t) u.length (orders.textOrder.arrange u)
  pure (String.join blocks ++ helperSummary f d)

/-- The items of `results.json`. A class that no entry names has none. -/
def saveDetail (allApi : List ServiceApiClass) (d : Detection) : Except NullPointer (List VulData) := do
  let results ← groupByClass (fun _ vul => getData f vul) (values f d)
  pure <| (f.classOrder.arrange results.keys).flatMap fun cls =>
    match getServiceApiForImpl allApi cls with
    | some api => (orders.dataOrder.arrange ((results.lookup cls).getD [])).map fun it =>
        { it with serviceName := api.serviceName.getD "" }
    | none => []

/-- What a run leaves, with the entries in the order in which it met them. -/
structure RunResult where
  detection : Detection
  resultsTxt : String
  resultsJson : List VulData
  allApi : List ApiNode
  counts : Counts

inductive RunProblem where
  | detection (problem : DetectionProblem)
  | nullPointer
  deriving DecidableEq, Repr

/-- `dumpVul`, less what it prints. -/
def dumpVul (allApi : List ApiNode) (d : Detection) : Except NullPointer RunResult := do
  let apis := allApi.map (·.object.value)
  let resultsTxt ← saveSummary f orders apis d
  let resultsJson ← saveDetail f orders apis d
  let (allApi, counts) ← simpleReport f allApi
  pure { detection := d, resultsTxt, resultsJson, allApi, counts }

/-- `runDetecting` from empty state. All its loops over the entries meet them in
one order, because the set does not change in between. -/
def runDetecting (allApi : List ApiNode) : Except RunProblem RunResult := do
  let allApi := machine.nodeOrder.arrange allApi
  let (_, d) ← ((detectingVul f.toProgram (allApi.map (·.object.value))).run {}).mapError .detection
  (dumpVul f orders allApi d).mapError fun _ => .nullPointer

/-! ## What detection records -/

/-- The set and the map of findings hold the same methods, each finding names
its method, and each method belongs to the class of an analysed service. -/
structure Recorded (p : Program) (apiList : List ServiceApiClass) (d : Detection) : Prop where
  sameMethods : ∀ mtd, mtd ∈ d.vulSet ↔ mtd ∈ d.vulMap
  distinct : d.vulSet.Nodup
  entryPoint : ∀ mtd vul, d.vulMap.lookup mtd = some vul → vul.entryPoint = some mtd
  implemented : ∀ mtd ∈ d.vulSet, ∃ api ∈ apiList, ∃ implClass, api.implClass = some implClass ∧ mtd ∈ p.methods implClass

variable {f machine orders} {p : Program}

theorem analysisImplMethod_recorded (recorded : Recorded p apiList d) (listed : api ∈ apiList)
    (implemented : api.implClass = some implClass) (member : mtd ∈ p.methods implClass)
    (ran : analysisImplMethod p methods mtd d = .ok ((), next)) : Recorded p apiList next := by
  rcases analysisImplMethod_cases p methods mtd d with ⟨_, vul, st, found, step⟩ | ⟨_, step⟩ | ⟨_, _, _, step⟩
  · rw [step] at ran
    cases ran
    obtain ⟨entered, _⟩ := CallGraphVerdict.reported_at found
    constructor
    · intro m
      rw [KeyedSets.mem_add, recorded.sameMethods, AList.mem_insert, or_comm]
    · exact KeyedSets.add_nodup recorded.distinct
    · intro m other stored
      by_cases same : m = mtd
      · subst same
        rw [AList.lookup_insert] at stored
        cases stored
        exact entered
      · rw [AList.lookup_insert_ne same] at stored
        exact recorded.entryPoint m other stored
    · intro m inside
      rcases (KeyedSets.mem_add ..).mp inside with old | rfl
      · exact recorded.implemented m old
      · exact ⟨api, listed, implClass, implemented, member⟩
  · rw [step] at ran
    cases ran
    exact recorded
  · rw [step] at ran
    cases ran

theorem analysisService_recorded (recorded : Recorded p apiList d) (listed : api ∈ apiList)
    (ran : analysisService p api d = .ok ((), next)) : Recorded p apiList next := by
  unfold analysisService at ran
  split at ran
  · cases ran
    exact recorded
  · cases implemented : api.implClass with
    | none =>
      rw [implemented] at ran
      cases ran
    | some implClass =>
      rw [implemented] at ran
      refine each_keeps (Recorded p apiList) (p.methods implClass) ?_ recorded ran
      exact fun mtd member state next kept ran => analysisImplMethod_recorded kept listed implemented member ran

theorem analysisHelper_recorded (recorded : Recorded p apiList d) (ran : analysisHelper p api d = .ok ((), next)) :
    Recorded p apiList next := by
  unfold analysisHelper at ran
  cases helper : api.helperClass with
  | none =>
    rw [helper] at ran
    cases ran
    exact recorded
  | some helperClass =>
    rw [helper] at ran
    refine each_keeps (Recorded p apiList) (p.methods helperClass) ?_ recorded ran
    intro mtd _ state next kept ran
    rcases analysisHelperMethod_cases p mtd state with ⟨_, _, step⟩ | ⟨_, step⟩ | ⟨_, _, step⟩
    · rw [step] at ran
      cases ran
      exact ⟨kept.sameMethods, kept.distinct, kept.entryPoint, kept.implemented⟩
    · rw [step] at ran
      cases ran
      exact kept
    · rw [step] at ran
      cases ran

/-- Every detection that ends has recorded what it found. -/
theorem detection_recorded (ran : detectingVul p apiList {} = .ok ((), d)) : Recorded p apiList d := by
  unfold detectingVul at ran
  obtain ⟨_, middle, services, helpers⟩ := state_bind_ok.mp ran
  have start : Recorded p apiList {} := ⟨by simp, List.nodup_nil, by simp, by simp⟩
  have searched : Recorded p apiList middle := each_keeps (Recorded p apiList) apiList
    (fun api listed state next kept ran => analysisService_recorded kept listed ran) start services
  exact each_keeps (Recorded p apiList) apiList
    (fun api _ state next kept ran => analysisHelper_recorded kept ran) searched helpers

/-! ## The reports hold what was recorded -/

/-- The findings as the reports meet them, each with its method. -/
def foundVuls (f : Framework) (d : Detection) : List (SootMethod × VulnerableApiDesc) :=
  (f.hashOrder.arrange d.vulMap.keys).filterMap fun mtd => (d.vulMap.lookup mtd).map fun vul => (mtd, vul)

theorem values_eq (f : Framework) (d : Detection) : values f d = (foundVuls f d).map Prod.snd := by
  rw [values, foundVuls, List.map_filterMap]
  congr 1
  funext mtd
  cases d.vulMap.lookup mtd <;> rfl

theorem lookup_foundVuls (member : found ∈ foundVuls f d) : d.vulMap.lookup found.1 = some found.2 := by
  obtain ⟨mtd, _, stored⟩ := List.mem_filterMap.mp member
  obtain ⟨vul, lookedUp, rfl⟩ := Option.map_eq_some_iff.mp stored
  exact lookedUp

theorem foundVuls_perm (recorded : Recorded f.toProgram apiList d) :
    ((foundVuls f d).map Prod.fst).Perm d.vulSet := by
  have methods : (foundVuls f d).map Prod.fst = f.hashOrder.arrange d.vulMap.keys := by
    rw [foundVuls, List.map_filterMap]
    refine (List.filterMap_congr fun mtd member => ?_).trans List.filterMap_some
    have inside : mtd ∈ d.vulMap := AList.mem_keys.mpr (f.hashOrder.mem_arrange.mp member)
    obtain ⟨vul, stored⟩ := Option.isSome_iff_exists.mp (AList.lookup_isSome.mpr inside)
    rw [stored]
    rfl
  rw [methods]
  refine (f.hashOrder.arrange_perm _).trans ((List.perm_ext_iff_of_nodup d.vulMap.nodupKeys recorded.distinct).mpr ?_)
  intro mtd
  rw [recorded.sameMethods]
  exact AList.mem_keys.symm

/-- What a report puts into its groups. -/
def groupedItems (f : Framework) (d : Detection) (data : SootMethod → VulnerableApiDesc → α) : List (SootClass × α) :=
  (foundVuls f d).map fun found => (found.1.declaringClass, data found.1 found.2)

section Grouping
variable {data : SootMethod → VulnerableApiDesc → α} {text : α → String}

/-- A group holds the findings of its class. -/
theorem groupOf_perm (recorded : Recorded f.toProgram apiList d)
    (named : ∀ found ∈ foundVuls f d, text (data found.1 found.2) = f.signature found.1) (cls : SootClass) :
    ((groupOf (groupedItems f d data) cls).map text).Perm
      ((d.vulSet.filter fun mtd => mtd.declaringClass = cls).map f.signature) := by
  have spelled : (groupOf (groupedItems f d data) cls).map text =
      (((foundVuls f d).map Prod.fst).filter fun mtd => mtd.declaringClass = cls).map f.signature := by
    rw [groupOf, groupedItems, List.filter_map, List.filter_map, List.map_map, List.map_map, List.map_map]
    exact List.map_congr_left fun found member => named found (List.mem_filter.mp member).1
  rw [spelled]
  exact ((foundVuls_perm recorded).filter _).map _

theorem items_perm (recorded : Recorded f.toProgram apiList d)
    (named : ∀ found ∈ foundVuls f d, text (data found.1 found.2) = f.signature found.1) :
    (((groupedItems f d data).map Prod.snd).map text).Perm (d.vulSet.map f.signature) := by
  have spelled : ((groupedItems f d data).map Prod.snd).map text = ((foundVuls f d).map Prod.fst).map f.signature := by
    rw [groupedItems, List.map_map, List.map_map, List.map_map]
    exact List.map_congr_left named
  rw [spelled]
  exact (foundVuls_perm recorded).map _

variable [DecidableEq α]

/-- Grouping fails on no recorded finding. -/
theorem groupByClass_ok (recorded : Recorded f.toProgram apiList d) (data : SootMethod → VulnerableApiDesc → α) :
    groupByClass data (values f d) = .ok (putAll id ∅ (groupedItems f d data)) := by
  have entered (found : SootMethod × VulnerableApiDesc) (member : found ∈ foundVuls f d) :
      found.2.entryPoint = some found.1 := recorded.entryPoint _ _ (lookup_foundVuls member)
  rw [values_eq, groupByClass, putAll, groupedItems, List.foldlM_map, List.foldl_map]
  generalize foundVuls f d = vuls at entered
  generalize (∅ : Groups SootClass α) = results
  induction vuls generalizing results with
  | nil => rfl
  | cons found rest ih =>
    rw [List.foldlM_cons, List.foldl_cons, entered found List.mem_cons_self]
    exact ih (fun other member => entered other (List.mem_cons_of_mem _ member)) _

theorem mem_groups (recorded : Recorded f.toProgram apiList d) :
    cls ∈ (putAll id ∅ (groupedItems f d data)).keys ↔ ∃ mtd ∈ d.vulSet, mtd.declaringClass = cls := by
  rw [← AList.mem_keys, mem_putAll]
  simp only [AList.notMem_empty, false_or, groupedItems, List.map_map, List.mem_map, Function.comp_apply]
  constructor
  · rintro ⟨found, member, rfl⟩
    exact ⟨found.1, (foundVuls_perm recorded).mem_iff.mp (List.mem_map_of_mem member), rfl⟩
  · rintro ⟨mtd, member, rfl⟩
    obtain ⟨found, listed, rfl⟩ := List.mem_map.mp ((foundVuls_perm recorded).mem_iff.mpr member)
    exact ⟨found, listed, rfl⟩

/-- Where signatures differ, a set keeps every finding of its class. -/
theorem arranged_perm (data : SootMethod → VulnerableApiDesc → α) (text : α → String)
    (recorded : Recorded f.toProgram apiList d) (distinct : (d.vulSet.map f.signature).Nodup)
    (named : ∀ found ∈ foundVuls f d, text (data found.1 found.2) = f.signature found.1) (order : HashOrder α)
    (cls : SootClass) :
    ((order.arrange (((putAll id ∅ (groupedItems f d data)).lookup cls).getD [])).map text).Perm
      ((d.vulSet.filter fun mtd => mtd.declaringClass = cls).map f.signature) := by
  have apart : ((groupedItems f d data).map Prod.snd).Nodup :=
    ((items_perm recorded named).nodup_iff.mpr distinct).of_map text
  rw [lookup_putAll_nodup (groupOf_nodup apart cls)]
  exact ((order.arrange_perm _).map text).trans (groupOf_perm recorded named cls)

/-- The classes of a report together have every finding once. -/
theorem classes_perm (recorded : Recorded f.toProgram apiList d) (distinct : (d.vulSet.map f.signature).Nodup) :
    ((f.classOrder.arrange (putAll id ∅ (groupedItems f d data)).keys).flatMap fun cls =>
      (d.vulSet.filter fun mtd => mtd.declaringClass = cls).map f.signature).Perm (d.vulSet.map f.signature) := by
  have spelled (cls : SootClass) : groupOf (d.vulSet.map fun mtd => (mtd.declaringClass, f.signature mtd)) cls =
      (d.vulSet.filter fun mtd => mtd.declaringClass = cls).map f.signature := by
    rw [groupOf, List.filter_map, List.map_map]
    rfl
  have listed : (d.vulSet.map fun mtd => (mtd.declaringClass, f.signature mtd)).map Prod.snd = d.vulSet.map f.signature := by
    rw [List.map_map]
    rfl
  simp only [← spelled, ← listed] at distinct ⊢
  refine groups_perm distinct ((f.classOrder.arrange_perm _).nodup_iff.mpr (AList.keys_nodup _)) fun item member => ?_
  obtain ⟨mtd, inside, rfl⟩ := List.mem_map.mp member
  exact f.classOrder.mem_arrange.mpr ((mem_groups recorded).mpr ⟨mtd, inside, rfl⟩)

end Grouping

/-- Signatures tell the declared methods apart. -/
def SignaturesDiffer (f : Framework) : Prop :=
  ∀ cls, ∀ mtd ∈ f.methods cls, ∀ other, ∀ another ∈ f.methods other, f.signature mtd = f.signature another → mtd = another

theorem signatures_nodup (differ : SignaturesDiffer f) (recorded : Recorded f.toProgram apiList d) :
    (d.vulSet.map f.signature).Nodup := by
  refine recorded.distinct.map_on fun mtd member another listed same => ?_
  obtain ⟨_, _, cls, _, declared⟩ := recorded.implemented mtd member
  obtain ⟨_, _, other, _, spelled⟩ := recorded.implemented another listed
  exact differ cls mtd declared other another spelled same

/-- The summary has one block for each class of a finding. -/
theorem saveSummary_ok (differ : SignaturesDiffer f) (recorded : Recorded f.toProgram apiList d) :
    ∃ sections : List (SootClass × List String),
      saveSummary f orders apiList d = .ok (String.join (sections.map fun part =>
        summaryBlock (summaryTitle apiList part.1) (d.vulSet.countP fun mtd => mtd.declaringClass = part.1) part.2) ++
        helperSummary f d) ∧
      (sections.map Prod.fst).Nodup ∧
      (∀ part ∈ sections, part.2 ≠ [] ∧
        part.2.Perm ((d.vulSet.filter fun mtd => mtd.declaringClass = part.1).map f.signature)) ∧
      (sections.flatMap Prod.snd).Perm (d.vulSet.map f.signature) := by
  have distinct := signatures_nodup differ recorded
  have held (cls : SootClass) := arranged_perm (fun mtd _ => f.signature mtd) id recorded distinct (fun _ _ => rfl)
    orders.textOrder cls
  simp only [List.map_id] at held
  refine ⟨(f.classOrder.arrange (putAll id ∅ (groupedItems f d fun mtd _ => f.signature mtd)).keys).map fun cls =>
    (cls, orders.textOrder.arrange (((putAll id ∅ (groupedItems f d fun mtd _ => f.signature mtd)).lookup cls).getD [])),
    ?_, ?_, ?_, ?_⟩
  · rw [saveSummary, groupByClass_ok recorded]
    refine congrArg (fun blocks => Except.ok (String.join blocks ++ helperSummary f d)) ?_
    rw [List.map_map]
    refine List.map_congr_left fun cls _ => ?_
    have counted := (orders.textOrder.arrange_perm _).length_eq.symm.trans (held cls).length_eq
    rw [List.length_map, ← List.countP_eq_length_filter] at counted
    exact congrArg (fun count => summaryBlock (summaryTitle apiList cls) count _) counted
  · rw [List.map_map]
    exact (List.map_id _).symm ▸ (f.classOrder.arrange_perm _).nodup_iff.mpr (AList.keys_nodup _)
  · intro part member
    obtain ⟨cls, grouped, rfl⟩ := List.mem_map.mp member
    obtain ⟨mtd, found, declared⟩ := (mem_groups recorded).mp (f.classOrder.mem_arrange.mp grouped)
    have listed : f.signature mtd ∈ (d.vulSet.filter fun mtd => mtd.declaringClass = cls).map f.signature :=
      List.mem_map_of_mem (List.mem_filter.mpr ⟨found, by simp [declared]⟩)
    exact ⟨List.ne_nil_of_mem ((held cls).mem_iff.mpr listed), held cls⟩
  · rw [List.flatMap_map]
    exact (List.Perm.flatMap_left _ fun cls _ => held cls).trans (classes_perm recorded distinct)

/-- Methods are declared in the class that lists them. -/
def MethodsDeclared (p : Program) : Prop := ∀ cls, ∀ mtd ∈ p.methods cls, mtd.declaringClass = cls

theorem service_found (declared : MethodsDeclared f.toProgram) (recorded : Recorded f.toProgram apiList d)
    (member : mtd ∈ d.vulSet) : ∃ api, getServiceApiForImpl apiList mtd.declaringClass = some api := by
  obtain ⟨api, listed, implClass, implemented, inside⟩ := recorded.implemented mtd member
  refine Option.isSome_iff_exists.mp (List.find?_isSome.mpr ⟨api, listed, ?_⟩)
  simp [implemented, declared implClass mtd inside]

/-- The details have one item for each finding. -/
theorem saveDetail_ok (declared : MethodsDeclared f.toProgram) (differ : SignaturesDiffer f)
    (recorded : Recorded f.toProgram apiList d) :
    ∃ items, saveDetail f orders apiList d = .ok items ∧ (items.map VulData.mtd).Perm (d.vulSet.map f.signature) := by
  have distinct := signatures_nodup differ recorded
  have named (found : SootMethod × VulnerableApiDesc) (member : found ∈ foundVuls f d) :
      (getData f found.2).mtd = f.signature found.1 := by
    simp [getData, recorded.entryPoint _ _ (lookup_foundVuls member)]
  have held (cls : SootClass) := arranged_perm (fun _ vul => getData f vul) VulData.mtd recorded distinct named
    orders.dataOrder cls
  rw [saveDetail, groupByClass_ok recorded]
  refine ⟨_, rfl, ?_⟩
  rw [List.map_flatMap]
  refine (List.Perm.flatMap_left _ fun cls grouped => ?_).trans (classes_perm recorded distinct)
  obtain ⟨mtd, found, rfl⟩ := (mem_groups recorded).mp (f.classOrder.mem_arrange.mp grouped)
  obtain ⟨api, service⟩ := service_found declared recorded found
  rw [service, List.map_map]
  exact held mtd.declaringClass

/-! ## A small framework -/

/-- A boot class adds one service, whose method leads to an insertion, and the
registry knows one helper. -/
def listeningMethods : List SootMethod :=
  [{ declaringClass := ⟨"android.app.SystemServiceRegistry"⟩, name := "<clinit>", subSignature := "void <clinit>()" },
    { declaringClass := ⟨"Registration"⟩, name := "createService", subSignature := "createService" },
    { declaringClass := ⟨"com.android.server.Boot"⟩, name := "start", subSignature := "start" },
    sampleMethod "listen", sampleMethod "target"]

def listeningBodies (name : String) : List Stmt :=
  match name with
  | "<clinit>" => [invocation .static "android.app.SystemServiceRegistry" "registerService"
      [.constant "listener", .constant "class Manager", .loc ⟨"block", 0⟩]]
  | "createService" => [.ret (.loc ⟨"manager", 1⟩)]
  | "start" => [.assign (.immediate (.loc ⟨"service", 2⟩)) (.newExpr ⟨"Service"⟩),
      invocation .static "android.os.ServiceManager" "addService" [.constant "listen", .loc ⟨"service", 2⟩]]
  | "listen" => [callTo "target"]
  | "target" => [CallGraphVerdict.registering]
  | _ => []

def listening : Framework :=
  let program : Program := { sampleProgram listeningBodies with
    methods := fun cls => listeningMethods.filter fun mtd => mtd.declaringClass = cls
    isInterface := fun cls => cls.name == "Service" }
  { sampleFramework program with
    applicationClasses := [⟨"com.android.server.Boot"⟩]
    returnType := fun _ => .refType ⟨"Manager"⟩
    localType := fun l => .refType ⟨if l.name = "block" then "Registration" else "Manager"⟩
    constantType := fun _ => .refType ⟨"java.lang.Class"⟩ }

def sampleMachine : Machine := ⟨fun _ => 0, insertionOrder, insertionOrder⟩

def sampleOrders : ReportOrders := ⟨insertionOrder, insertionOrder⟩

theorem listening_declared : MethodsDeclared listening.toProgram := by
  intro cls mtd member
  simpa using (List.mem_filter.mp member).2

theorem listening_differ : SignaturesDiffer listening := by
  have apart : ∀ mtd ∈ listeningMethods, ∀ another ∈ listeningMethods,
      listening.signature mtd = listening.signature another → mtd = another := by
    decide +kernel
  exact fun cls mtd member other another listed =>
    apart mtd (List.mem_filter.mp member).1 another (List.mem_filter.mp listed).1

/-- The registry that is extracted from the framework. -/
def listeningApis : List ApiNode :=
  [⟨0x9501a78d, ⟨0, { helperClass := some ⟨"Manager"⟩, managerName := some "listener" }⟩⟩,
    ⟨0xd97c5e95, ⟨1, { implClass := some ⟨"Service"⟩, serviceName := some "listen" }⟩⟩]

theorem listening_extracted : extractIPCMethods listening sampleMachine 3 = .ok listeningApis := by
  decide +kernel

theorem runDetecting_ok (ran : runDetecting f machine orders allApi = .ok result) :
    detectingVul f.toProgram ((machine.nodeOrder.arrange allApi).map (·.object.value)) {} = .ok ((), result.detection) ∧
    saveSummary f orders ((machine.nodeOrder.arrange allApi).map (·.object.value)) result.detection = .ok result.resultsTxt ∧
    saveDetail f orders ((machine.nodeOrder.arrange allApi).map (·.object.value)) result.detection = .ok result.resultsJson ∧
    simpleReport f (machine.nodeOrder.arrange allApi) = .ok (result.allApi, result.counts) := by
  unfold runDetecting at ran
  obtain ⟨⟨_, d⟩, detected, dumped⟩ := bind_ok.mp ran
  have dumped := mapError_ok.mp dumped
  unfold dumpVul at dumped
  obtain ⟨resultsTxt, summary, rest⟩ := bind_ok.mp dumped
  obtain ⟨resultsJson, detail, rest⟩ := bind_ok.mp rest
  obtain ⟨⟨entries, counts⟩, reported, rest⟩ := bind_ok.mp rest
  cases rest
  exact ⟨mapError_ok.mp detected, summary, detail, reported⟩

/-- After a run the set and the map of findings agree, the summary has a block
for each class with its findings and their number, and both reports have every
finding once and nothing else. -/
theorem reports_agree (declared : MethodsDeclared f.toProgram) (differ : SignaturesDiffer f)
    (ran : runDetecting f machine orders allApi = .ok result) :
    (∀ mtd, mtd ∈ result.detection.vulSet ↔ mtd ∈ result.detection.vulMap) ∧
    (∀ mtd vul, result.detection.vulMap.lookup mtd = some vul → vul.entryPoint = some mtd) ∧
    (result.detection.vulSet.map f.signature).Nodup ∧
    (∃ sections : List (SootClass × List String),
      result.resultsTxt = String.join (sections.map fun part =>
        summaryBlock (summaryTitle ((machine.nodeOrder.arrange allApi).map (·.object.value)) part.1)
          (result.detection.vulSet.countP fun mtd => mtd.declaringClass = part.1) part.2) ++
        helperSummary f result.detection ∧
      (sections.map Prod.fst).Nodup ∧
      (∀ part ∈ sections, part.2 ≠ [] ∧
        part.2.Perm ((result.detection.vulSet.filter fun mtd => mtd.declaringClass = part.1).map f.signature)) ∧
      (sections.flatMap Prod.snd).Perm (result.detection.vulSet.map f.signature)) ∧
    (result.resultsJson.map VulData.mtd).Perm (result.detection.vulSet.map f.signature) := by
  obtain ⟨detected, summary, detail, _⟩ := runDetecting_ok ran
  have recorded := detection_recorded detected
  obtain ⟨sections, saved, blocks⟩ := saveSummary_ok differ recorded
  obtain ⟨items, listed, together⟩ := saveDetail_ok declared differ recorded
  rw [summary] at saved
  rw [detail] at listed
  exact ⟨recorded.sameMethods, recorded.entryPoint, signatures_nodup differ recorded,
    ⟨sections, Except.ok.inj saved, blocks⟩, Except.ok.inj listed ▸ together⟩

theorem reports_agree_listening : ∃ result, runDetecting listening sampleMachine sampleOrders listeningApis = .ok result ∧
    result.detection.vulSet = [sampleMethod "listen", sampleMethod "target"] ∧
    (∀ mtd, mtd ∈ result.detection.vulSet ↔ mtd ∈ result.detection.vulMap) ∧
    (∀ mtd vul, result.detection.vulMap.lookup mtd = some vul → vul.entryPoint = some mtd) ∧
    (result.detection.vulSet.map listening.signature).Nodup ∧
    (∃ sections : List (SootClass × List String),
      result.resultsTxt = String.join (sections.map fun part =>
        summaryBlock (summaryTitle ((sampleMachine.nodeOrder.arrange listeningApis).map (·.object.value)) part.1)
          (result.detection.vulSet.countP fun mtd => mtd.declaringClass = part.1) part.2) ++
        helperSummary listening result.detection ∧
      (sections.map Prod.fst).Nodup ∧
      (∀ part ∈ sections, part.2 ≠ [] ∧
        part.2.Perm ((result.detection.vulSet.filter fun mtd => mtd.declaringClass = part.1).map listening.signature)) ∧
      (sections.flatMap Prod.snd).Perm (result.detection.vulSet.map listening.signature)) ∧
    (result.resultsJson.map VulData.mtd).Perm (result.detection.vulSet.map listening.signature) :=
  ⟨_, rfl, rfl, reports_agree listening_declared listening_differ rfl⟩

/-! ## A run leaves the registry in order -/

theorem analysisImplMethod_failed (failed : analysisImplMethod p methods mtd d = .error problem) :
    ∃ unresolved, problem = .resolutionFailed unresolved := by
  rcases analysisImplMethod_cases p methods mtd d with ⟨_, _, _, _, step⟩ | ⟨_, step⟩ | ⟨_, cause, _, step⟩
  · rw [step] at failed
    cases failed
  · rw [step] at failed
    cases failed
  · rw [step] at failed
    cases failed
    exact ⟨cause, rfl⟩

theorem analysisService_failed (kind : OneKind api) (failed : analysisService p api d = .error problem) :
    ∃ unresolved, problem = .resolutionFailed unresolved := by
  unfold analysisService at failed
  rcases kind with ⟨helper, _⟩ | ⟨noHelper, service⟩
  · rw [if_pos (by simpa [ServiceApiClass.isHelperClass] using helper)] at failed
    cases failed
  · obtain ⟨implClass, implemented⟩ := Option.isSome_iff_exists.mp service
    rw [if_neg (by simp [ServiceApiClass.isHelperClass, noHelper]), implemented] at failed
    obtain ⟨mtd, _, reached, stops⟩ := each_failed _ failed
    exact analysisImplMethod_failed stops

theorem analysisHelper_failed (failed : analysisHelper p api d = .error problem) :
    ∃ unresolved, problem = .resolutionFailed unresolved := by
  unfold analysisHelper at failed
  cases helper : api.helperClass with
  | none =>
    rw [helper] at failed
    cases failed
  | some helperClass =>
    rw [helper] at failed
    obtain ⟨mtd, _, reached, stops⟩ := each_failed _ failed
    rcases analysisHelperMethod_cases p mtd reached with ⟨_, _, step⟩ | ⟨_, step⟩ | ⟨cause, _, step⟩
    · rw [step] at stops
      cases stops
    · rw [step] at stops
      cases stops
    · rw [step] at stops
      cases stops
      exact ⟨cause, rfl⟩

/-- With entries of one kind each, detection fails only where a method cannot be
resolved. -/
theorem detectingVul_failed (kinds : ∀ api ∈ apiList, OneKind api)
    (failed : detectingVul p apiList {} = .error problem) : ∃ unresolved, problem = .resolutionFailed unresolved := by
  unfold detectingVul at failed
  rcases bind_error.mp failed with services | ⟨⟨_, middle⟩, _, helpers⟩
  · obtain ⟨api, listed, reached, stops⟩ := each_failed apiList services
    exact analysisService_failed (kinds api listed) stops
  · obtain ⟨api, _, reached, stops⟩ := each_failed apiList helpers
    exact analysisHelper_failed stops

/-- The reports are written after every detection that ends. -/
theorem reports_written (orders : ReportOrders) (detected : detectingVul f.toProgram apiList {} = .ok ((), d)) :
    (∃ text, saveSummary f orders apiList d = .ok text) ∧ ∃ items, saveDetail f orders apiList d = .ok items := by
  have recorded := detection_recorded detected
  constructor
  · rw [saveSummary, groupByClass_ok recorded]
    exact ⟨_, rfl⟩
  · rw [saveDetail, groupByClass_ok recorded]
    exact ⟨_, rfl⟩

/-- Extracted entries are of one kind each. A run over them fails only where a
method cannot be resolved, and what it leaves has the hashes it started with:
every entry is still found, and another report changes nothing. -/
theorem registry_intact (extracted : extractIPCMethods f machine rounds = .ok allApi) :
    (∀ node ∈ allApi, OneKind node.object.value) ∧
    (∀ problem, runDetecting f machine orders allApi = .error problem →
      ∃ unresolved, problem = .detection (.resolutionFailed unresolved)) ∧
    ∀ result, runDetecting f machine orders allApi = .ok result →
      List.Forall₂ (fun before after => after.object.id = before.object.id ∧ after.hash = before.hash ∧
        hashCode machine after.object = hashCode machine before.object ∧
        contains (hashCode machine) result.allApi after.object = true) (machine.nodeOrder.arrange allApi) result.allApi ∧
      simpleReport f result.allApi = .ok (result.allApi, result.counts) := by
  obtain ⟨kinds, settled⟩ := extracted_kinds extracted
  have arranged : ∀ node ∈ machine.nodeOrder.arrange allApi, OneKind node.object.value :=
    fun node member => kinds node (machine.nodeOrder.mem_arrange.mp member)
  have ordered : Settled (hashCode machine) (machine.nodeOrder.arrange allApi) :=
    fun node member => settled node (machine.nodeOrder.mem_arrange.mp member)
  refine ⟨kinds, fun problem failed => ?_, fun result ran => ?_⟩
  · unfold runDetecting at failed
    rcases bind_error.mp failed with stopped | ⟨⟨_, d⟩, detected, dumping⟩
    · obtain ⟨cause, detecting, rfl⟩ := mapError_error.mp stopped
      obtain ⟨unresolved, rfl⟩ := detectingVul_failed (List.forall_mem_map.mpr arranged) detecting
      exact ⟨unresolved, rfl⟩
    · obtain ⟨_, dumped, _⟩ := mapError_error.mp dumping
      obtain ⟨⟨text, summary⟩, items, detail⟩ := reports_written orders (mapError_ok.mp detected)
      simp only [dumpVul, summary, detail, simpleReport_ok arranged] at dumped
      cases dumped
  · obtain ⟨_, _, _, reported⟩ := runDetecting_ok ran
    refine ⟨?_, simpleReport_again arranged reported⟩
    rw [simpleReport_ok arranged] at reported
    obtain ⟨same, _⟩ := Prod.mk.inj (Except.ok.inj reported)
    rw [← same, List.forall₂_map_right_iff]
    refine List.forall₂_same.mpr fun node member => ⟨rfl, rfl, hashCode_completed (arranged node member), ?_⟩
    exact contains_of_settled (report_settled arranged ordered) (List.mem_map_of_mem member)

theorem registry_intact_listening : extractIPCMethods listening sampleMachine 3 = .ok listeningApis ∧
    (∀ node ∈ listeningApis, OneKind node.object.value) ∧
    (∀ problem, runDetecting listening sampleMachine sampleOrders listeningApis = .error problem →
      ∃ unresolved, problem = .detection (.resolutionFailed unresolved)) ∧
    ∀ result, runDetecting listening sampleMachine sampleOrders listeningApis = .ok result →
      List.Forall₂ (fun before after => after.object.id = before.object.id ∧ after.hash = before.hash ∧
        hashCode sampleMachine after.object = hashCode sampleMachine before.object ∧
        contains (hashCode sampleMachine) result.allApi after.object = true) (sampleMachine.nodeOrder.arrange listeningApis) result.allApi ∧
      simpleReport listening result.allApi = .ok (result.allApi, result.counts) :=
  ⟨listening_extracted, registry_intact listening_extracted⟩

end JgreAnalysis.DetectionReports
