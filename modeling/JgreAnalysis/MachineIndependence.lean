import JgreAnalysis.HelperMatches
import JgreAnalysis.RunAnalysis

/-! What a run leaves is not up to the machine. The hashes of objects and the orders
in which sets iterate decide in which order a run meets the entries. That has no
part in whether the run ends, in what it finds, or in what it reports of a finding
other than the name of the service. -/
namespace JgreAnalysis.MachineIndependence
open SootModel ExitPointChecker FrameworkScene CallGraphSearch ServiceApi ServiceHelperExtractor ServiceImplExtractor
open ServiceRegistry VulnerabilitiesDetecting AnalysisHelperApi HelperMatches DetectionReports ReportedDetails RunAnalysis
open ExhaustiveSearch GroupedSets LoopLaws

/-! ## The search from a helper -/

variable {p : Program}

theorem firstOutcome_map (g : γ → δ) (outcomes : List (Except ε γ)) :
    firstOutcome (outcomes.map (Except.map g)) = (firstOutcome outcomes).map (Option.map g) := by
  cases outcomes with
  | nil => rfl
  | cons outcome rest => cases outcome <;> rfl

theorem matchingExitPoint_isSome (p : Program) (exitPoints : List SootMethod) (sm : SootMethodRef) :
    (matchingExitPoint p exitPoints sm).isSome = true ↔ ∃ m ∈ exitPoints, m.subSignature = sm.subSignature := by
  simp [matchingExitPoint, List.find?_isSome, p.hashOrder.mem_arrange]

/-- Exit points that are listed in another order change which of them is called, but
not where one is. -/
theorem ipcCalls_shape (same : ∀ m, m ∈ exitPoints ↔ m ∈ others) (lev : ℕ) (mtd : SootMethod) :
    (ipcCalls p exitPoints lev mtd).map (Except.map fun _ => ()) =
      (ipcCalls p others lev mtd).map (Except.map fun _ => ()) := by
  have matching (sm : SootMethodRef) :
      (matchingExitPoint p exitPoints sm).isSome = (matchingExitPoint p others sm).isSome := by
    rw [Bool.eq_iff_iff, matchingExitPoint_isSome, matchingExitPoint_isSome]
    simp only [same]
  rw [ipcCalls, ipcCalls, List.map_flatMap, List.map_flatMap]
  refine List.flatMap_congr fun call _ => ?_
  cases call with
  | error problem => rfl
  | ok called =>
    have found := matching called
    rw [exitPointsOf, exitPointsOf]
    cases first : matchingExitPoint p exitPoints called <;>
      cases second : matchingExitPoint p others called <;> simp_all [Except.map]

theorem findVulIPCCall_shape (same : ∀ m, m ∈ exitPoints ↔ m ∈ others) (mtd : SootMethod) :
    (findVulIPCCall p exitPoints mtd).map (Option.map fun _ => ()) =
      (findVulIPCCall p others mtd).map (Option.map fun _ => ()) := by
  have first (points : List SootMethod) : findVulIPCCall p points mtd = firstOutcome (ipcCalls p points 3 mtd) := by
    rw [findVulIPCCall, searchCalled_eq_dive, dive_first, outcomes_eq]
  rw [first, first, ← firstOutcome_map, ← firstOutcome_map, ipcCalls_shape same]

/-- What a search comes to, without what it finds. -/
theorem found_iff_shape (reply : Except ε (Option γ)) :
    (∃ called, reply = .ok (some called)) ↔ reply.map (Option.map fun _ => ()) = .ok (some ()) := by
  rcases reply with problem | _ | called <;> simp [Except.map]

theorem ended_iff_shape (reply : Except ε (Option γ)) :
    (∃ called, reply = .ok called) ↔ ∃ called, reply.map (Option.map fun _ => ()) = .ok called := by
  cases reply <;> simp [Except.map]

theorem finds_iff (same : ∀ m, m ∈ exitPoints ↔ m ∈ others) (mtd : SootMethod) :
    (∃ called, findVulIPCCall p exitPoints mtd = .ok (some called)) ↔
      ∃ called, findVulIPCCall p others mtd = .ok (some called) := by
  rw [found_iff_shape, findVulIPCCall_shape same, ← found_iff_shape]

theorem searches_iff (same : ∀ m, m ∈ exitPoints ↔ m ∈ others) (mtd : SootMethod) :
    (∃ called, findVulIPCCall p exitPoints mtd = .ok called) ↔ ∃ called, findVulIPCCall p others mtd = .ok called := by
  rw [ended_iff_shape, findVulIPCCall_shape same, ← ended_iff_shape]

/-! ## When a detection ends -/

/-- The searches from what the entry offers as a service end. -/
def ServiceEnds (p : Program) (api : ServiceApiClass) : Prop :=
  api.helperClass = none → api.implClass.isSome = true ∧
    ∀ mtd, Implements p api mtd → ∃ reply, freshAnalysis p callGraphLev mtd = .ok reply

/-- The searches from what the entry offers as a helper end. -/
def HelperEnds (p : Program) (exitPoints : List SootMethod) (api : ServiceApiClass) : Prop :=
  ∀ mtd, Helps p api mtd → ∃ called, findVulIPCCall p exitPoints mtd = .ok called

theorem analysisImplMethod_ok_iff (p : Program) (methods : List String) (mtd : SootMethod) (d : Detection) :
    (∃ reply, analysisImplMethod p methods mtd d = .ok reply) ↔
      (mtd.subSignature ∈ methods → ∃ reply, freshAnalysis p callGraphLev mtd = .ok reply) := by
  rcases analysisImplMethod_cases p methods mtd d with
    ⟨_, vul, st, found, step⟩ | ⟨quiet, step⟩ | ⟨listed, problem, fails, step⟩
  · exact ⟨fun _ _ => ⟨_, found⟩, fun _ => ⟨_, step⟩⟩
  · exact ⟨fun _ listed => ⟨_, (quiet listed).choose_spec⟩, fun _ => ⟨_, step⟩⟩
  · simp [step, fails, listed]

theorem analysisImplClass_eq (p : Program) (sc : SootClass) (inf : Option SootClass) :
    analysisImplClass p sc inf = (p.methods sc).forM (analysisImplMethod p (getPublicApis p (inf.getD sc))) := by
  cases inf <;> rfl

theorem analysisService_ok_iff (p : Program) (api : ServiceApiClass) (d : Detection) :
    (∃ reply, analysisService p api d = .ok reply) ↔ ServiceEnds p api := by
  unfold analysisService ServiceEnds ServiceApiClass.isHelperClass
  cases helper : api.helperClass with
  | some helperClass => exact ⟨fun _ => nofun, fun _ => ⟨_, rfl⟩⟩
  | none =>
    simp only [Option.isSome_none, Bool.false_eq_true, if_false, true_implies]
    cases implemented : api.implClass with
    | none =>
      refine ⟨?_, fun ends => Bool.noConfusion ends.1⟩
      rintro ⟨_, ran⟩
      cases ran
    | some implClass =>
      dsimp only
      rw [analysisImplClass_eq, each_ok_iff (fun _ => True) (fun mtd state _ => analysisImplMethod_ok_iff p _ mtd state)
        (fun _ _ _ _ _ => trivial) (p.methods implClass) d trivial]
      simp only [mem_getPublicApis]
      constructor
      · refine fun ends => ⟨rfl, ?_⟩
        rintro mtd ⟨_, cls, same, declared, listed⟩
        rw [implemented] at same
        cases same
        exact ends mtd declared listed
      · exact fun ends mtd declared listed => ends.2 mtd ⟨helper, implClass, implemented, declared, listed⟩

theorem analysisHelperMethod_ok_iff (p : Program) (mtd : SootMethod) (d : Detection) :
    (∃ reply, analysisHelperMethod p mtd d = .ok reply) ↔
      (mtd.isPublic = true ∧ mtd.isConcrete = true → ∃ called, findVulIPCCall p d.vulSet mtd = .ok called) := by
  unfold analysisHelperMethod
  by_cases visible : mtd.isPublic ∧ mtd.isConcrete
  · rw [if_pos visible]
    simp only [bind, StateT.bind, Except.bind, get, getThe, MonadStateOf.get, StateT.get, pure, Except.pure]
    rcases findVulIPCCall p d.vulSet mtd with problem | _ | called
    · refine ⟨?_, fun ends => ?_⟩
      · rintro ⟨_, ran⟩
        cases ran
      · obtain ⟨_, ended⟩ := ends visible
        cases ended
    · exact ⟨fun _ _ => ⟨_, rfl⟩, fun _ => ⟨_, rfl⟩⟩
    · exact ⟨fun _ _ => ⟨_, rfl⟩, fun _ => ⟨_, rfl⟩⟩
  · rw [if_neg visible]
    exact ⟨fun _ seen => absurd seen visible, fun _ => ⟨_, rfl⟩⟩

theorem analysisHelper_ok_iff (api : ServiceApiClass) (known : d.vulSet = vulSet) :
    (∃ reply, analysisHelper p api d = .ok reply) ↔ HelperEnds p vulSet api := by
  unfold analysisHelper HelperEnds
  cases helper : api.helperClass with
  | none =>
    refine ⟨fun _ mtd helps => ?_, fun _ => ⟨_, rfl⟩⟩
    obtain ⟨helperClass, named, _⟩ := helps
    rw [helper] at named
    cases named
  | some helperClass =>
    have succeeds (mtd : SootMethod) (state : Detection) (same : state.vulSet = vulSet) :
        (∃ reply, analysisHelperMethod p mtd state = .ok reply) ↔
          (mtd.isPublic = true ∧ mtd.isConcrete = true → ∃ called, findVulIPCCall p vulSet mtd = .ok called) :=
      same ▸ analysisHelperMethod_ok_iff p mtd state
    dsimp only
    have kept (mtd : SootMethod) (state next : Detection) (same : state.vulSet = vulSet)
        (ran : analysisHelperMethod p mtd state = .ok ((), next)) : next.vulSet = vulSet :=
      (analysisHelperMethod_gains vulSet same ran).1.trans same
    rw [analysisHelperClass,
      each_ok_iff (fun state => state.vulSet = vulSet) succeeds kept (p.methods helperClass) d known]
    constructor
    · rintro ends mtd ⟨cls, named, declared, visible⟩
      rw [helper] at named
      cases named
      exact ends mtd declared visible
    · exact fun ends mtd declared visible => ends mtd ⟨helperClass, helper, declared, visible⟩

/-- The service methods that are searched from with success. -/
def FoundIn (p : Program) (apiList : List ServiceApiClass) (mtd : SootMethod) : Prop :=
  ∃ api ∈ apiList, Implements p api mtd ∧ Vulnerable p mtd

/-- A detection ends when all its searches end, each of those from helpers over the
methods found. -/
theorem detection_ok_iff (p : Program) (apiList : List ServiceApiClass) :
    (∃ d, detectingVul p apiList {} = .ok ((), d)) ↔ (∀ api ∈ apiList, ServiceEnds p api) ∧
      ∀ exitPoints, (∀ mtd, mtd ∈ exitPoints ↔ FoundIn p apiList mtd) → ∀ api ∈ apiList, HelperEnds p exitPoints api := by
  have services : (∃ reply, apiList.forM (analysisService p) {} = .ok reply) ↔ ∀ api ∈ apiList, ServiceEnds p api :=
    each_ok_iff (fun _ => True) (fun api state _ => analysisService_ok_iff p api state) (fun _ _ _ _ _ => trivial)
      apiList {} trivial
  have helpers (middle : Detection) :
      (∃ reply, apiList.forM (analysisHelper p) middle = .ok reply) ↔ ∀ api ∈ apiList, HelperEnds p middle.vulSet api :=
    each_ok_iff (fun state => state.vulSet = middle.vulSet) (fun api state same => analysisHelper_ok_iff api same)
      (fun api state next same ran => (analysisHelper_gains middle.vulSet same ran).1.trans same) apiList middle rfl
  have found (middle : Detection) (ran : apiList.forM (analysisService p) {} = .ok ((), middle)) (mtd : SootMethod) :
      mtd ∈ middle.vulSet ↔ FoundIn p apiList mtd := by
    simpa [FoundIn] using (each_gains (fun _ _ _ _ ran => analysisService_gains ran) apiList rfl ran).2 mtd
  constructor
  · rintro ⟨d, ran⟩
    obtain ⟨_, middle, first, second⟩ := state_bind_ok.mp ran
    refine ⟨services.mp ⟨_, first⟩, fun exitPoints exact_ api listed mtd helps => ?_⟩
    have same (m : SootMethod) : m ∈ exitPoints ↔ m ∈ middle.vulSet := (exact_ m).trans (found middle first m).symm
    exact (searches_iff same mtd).mpr ((helpers middle).mp ⟨_, second⟩ api listed mtd helps)
  · rintro ⟨served, helped⟩
    obtain ⟨⟨_, middle⟩, first⟩ := services.mpr served
    obtain ⟨⟨_, d⟩, second⟩ := (helpers middle).mpr (helped middle.vulSet (found middle first))
    exact ⟨d, state_bind_ok.mpr ⟨(), middle, first, second⟩⟩

/-! ## What a detection finds -/

/-- Both detections found the same, in whatever order. -/
structure SameFindings (d other : Detection) : Prop where
  vulSet : d.vulSet.Perm other.vulSet
  helperVulSet : d.helperVulSet.Perm other.helperVulSet
  vulMap : ∀ mtd, d.vulMap.lookup mtd = other.vulMap.lookup mtd

theorem helpers_distinct (ran : detectingVul p apiList {} = .ok ((), d)) : d.helperVulSet.Nodup := by
  obtain ⟨_, middle, services, helpers⟩ := state_bind_ok.mp ran
  obtain ⟨none, _⟩ := each_gains (fun _ _ _ _ ran => analysisService_gains ran) apiList rfl services
  have start : middle.helperVulSet.Nodup := by simp [none]
  refine each_keeps (fun state => state.helperVulSet.Nodup) apiList (fun api _ state next kept ran => ?_) start helpers
  unfold analysisHelper at ran
  cases helper : api.helperClass with
  | none =>
    rw [helper] at ran
    cases ran
    exact kept
  | some helperClass =>
    rw [helper] at ran
    refine each_keeps (fun state => state.helperVulSet.Nodup) (p.methods helperClass) ?_ kept ran
    intro mtd _ state next kept ran
    rcases analysisHelperMethod_cases p mtd state with ⟨_, _, step⟩ | ⟨_, step⟩ | ⟨_, _, step⟩
    · rw [step] at ran
      cases ran
      exact KeyedSets.add_nodup kept
    · rw [step] at ran
      cases ran
      exact kept
    · rw [step] at ran
      cases ran

/-- The order in which a detection meets the entries has no part in what it finds. -/
theorem same_findings (same : apiList.Perm others) (ran : detectingVul p apiList {} = .ok ((), d))
    (again : detectingVul p others {} = .ok ((), other)) : SameFindings d other := by
  have recorded := detection_recorded ran
  have recordedAgain := detection_recorded again
  obtain ⟨found, led⟩ := detection_finds ran
  obtain ⟨foundAgain, ledAgain⟩ := detection_finds again
  have vuls (mtd : SootMethod) : mtd ∈ d.vulSet ↔ mtd ∈ other.vulSet := by
    rw [found, foundAgain]
    simp only [same.mem_iff]
  refine ⟨(List.perm_ext_iff_of_nodup recorded.distinct recordedAgain.distinct).mpr vuls,
    (List.perm_ext_iff_of_nodup (helpers_distinct ran) (helpers_distinct again)).mpr fun mtd => ?_, fun mtd => ?_⟩
  · rw [led, ledAgain]
    simp only [same.mem_iff, finds_iff vuls]
  · have known : mtd ∈ d.vulMap ↔ mtd ∈ other.vulMap :=
      (recorded.sameMethods mtd).symm.trans ((vuls mtd).trans (recordedAgain.sameMethods mtd))
    rw [← AList.lookup_isSome, ← AList.lookup_isSome] at known
    cases first : d.vulMap.lookup mtd with
    | none => cases second : other.vulMap.lookup mtd <;> simp_all
    | some vul =>
      obtain ⟨vulAgain, second⟩ := Option.isSome_iff_exists.mp (known.mp (by simp [first]))
      obtain ⟨_, reported⟩ := detection_searched ran mtd vul first
      obtain ⟨_, reportedAgain⟩ := detection_searched again mtd vulAgain second
      rw [reported] at reportedAgain
      cases reportedAgain
      exact second.symm

/-! ## What the reports say -/

variable {f : Framework} {machine : Machine} {orders otherOrders : ReportOrders}

/-- An item without the name of its service. -/
def unnamed (item : VulData) : VulData := { item with serviceName := "" }

/-- The items of each class. -/
def itemGroups (f : Framework) (d : Detection) : Groups SootClass VulData :=
  putAll id ∅ (groupedItems f d fun _ vul => getData f vul)

theorem itemGroups_perm (findings : SameFindings d other) (cls : SootClass) :
    (((itemGroups f d).lookup cls).getD []).Perm (((itemGroups f other).lookup cls).getD []) := by
  simp only [itemGroups, lookup_putAll, AList.lookup_empty, Option.getD_none]
  refine (List.perm_ext_iff_of_nodup (KeyedSets.addAll_nodup List.nodup_nil _)
    (KeyedSets.addAll_nodup List.nodup_nil _)).mpr fun item => ?_
  simp only [KeyedSets.mem_addAll, mem_groupOf, groupedItems, List.mem_map, Prod.exists, mem_foundVuls, findings.vulMap]

/-- What the first entry with the class gives is what another one gives, where those
with the class agree. -/
theorem served_perm (same : apiList.Perm others) (g : ServiceApiClass → β)
    (agree : ∀ a ∈ apiList, ∀ b ∈ apiList, a.implClass = some cls → b.implClass = some cls → g a = g b) :
    (getServiceApiForImpl apiList cls).map g = (getServiceApiForImpl others cls).map g := by
  unfold getServiceApiForImpl
  cases first : apiList.find? fun api => api.implClass = some cls with
  | none =>
    have absent := List.find?_eq_none.mp first
    rw [List.find?_eq_none.mpr fun api listed => absent api (same.mem_iff.mpr listed)]
  | some a =>
    have inside := List.mem_of_find?_eq_some first
    have served : a.implClass = some cls := by simpa using List.find?_some first
    cases second : others.find? fun api => api.implClass = some cls with
    | none => exact absurd (decide_eq_true served) (List.find?_eq_none.mp second a (same.mem_iff.mp inside))
    | some b =>
      have listed := same.mem_iff.mpr (List.mem_of_find?_eq_some second)
      exact congrArg some (agree a inside b listed served (by simpa using List.find?_some second))

/-- The text of an item does not tell the services of a class apart. -/
def Indistinct (apiList : List ServiceApiClass) (text : VulData → VulData) : Prop :=
  ∀ item : VulData, ∀ a ∈ apiList, ∀ b ∈ apiList, ∀ cls, a.implClass = some cls → b.implClass = some cls →
    text { item with serviceName := a.serviceName.getD "" } = text { item with serviceName := b.serviceName.getD "" }

/-- The details of the same findings have the same items, as far as their text does
not tell services apart. -/
theorem saveDetail_perm (same : apiList.Perm others) (findings : SameFindings d other)
    (recorded : Recorded f.toProgram apiList d) (recordedAgain : Recorded f.toProgram others other)
    (indistinct : Indistinct apiList text)
    (saved : saveDetail f orders apiList d = .ok items) (again : saveDetail f otherOrders others other = .ok itemsAgain) :
    (items.map text).Perm (itemsAgain.map text) := by
  have keys : (itemGroups f d).keys.Perm (itemGroups f other).keys := by
    refine (List.perm_ext_iff_of_nodup (AList.keys_nodup _) (AList.keys_nodup _)).mpr fun cls => ?_
    rw [itemGroups, itemGroups, mem_groups recorded, mem_groups recordedAgain]
    simp only [findings.vulSet.mem_iff]
  have classes := ((f.classOrder.arrange_perm _).trans keys).trans (f.classOrder.arrange_perm _).symm
  rw [saveDetail, groupByClass_ok recorded] at saved
  rw [saveDetail, groupByClass_ok recordedAgain] at again
  obtain rfl := Except.ok.inj saved
  obtain rfl := Except.ok.inj again
  rw [List.map_flatMap, List.map_flatMap]
  refine (classes.flatMap_right _).trans (List.Perm.flatMap_left _ fun cls _ => ?_)
  have named (item : VulData) := served_perm same
    (fun api => text { item with serviceName := api.serviceName.getD "" })
    fun a inside b listed => indistinct item a inside b listed cls
  cases first : getServiceApiForImpl apiList cls with
  | none =>
    cases second : getServiceApiForImpl others cls with
    | none => rfl
    | some b =>
      have differ := named ⟨"", "", "", []⟩
      simp [first, second] at differ
  | some a =>
    cases second : getServiceApiForImpl others cls with
    | none =>
      have differ := named ⟨"", "", "", []⟩
      simp [first, second] at differ
    | some b =>
      have texts (item : VulData) : text { item with serviceName := a.serviceName.getD "" } =
          text { item with serviceName := b.serviceName.getD "" } := by
        simpa [first, second] using named item
      simp only [List.map_map, Function.comp_def, texts]
      exact (((orders.dataOrder.arrange_perm _).trans (itemGroups_perm findings cls)).trans
        (otherOrders.dataOrder.arrange_perm _).symm).map _

theorem counts_perm (kinds : ∀ node ∈ allApi, OneKind node.object.value)
    (same : (allApi.map (·.object.value)).Perm (others.map (·.object.value)))
    (reported : simpleReport f allApi = .ok (entries, counts))
    (again : simpleReport f others = .ok (entriesAgain, countsAgain)) : counts = countsAgain := by
  have values : ∀ api ∈ allApi.map (·.object.value), OneKind api := List.forall_mem_map.mpr kinds
  have otherValues : ∀ api ∈ others.map (·.object.value), OneKind api :=
    fun api listed => values api (same.mem_iff.mpr listed)
  rw [simpleReport_ok kinds] at reported
  rw [simpleReport_ok (List.forall_mem_map.mp otherValues)] at again
  obtain ⟨_, rfl⟩ := Prod.mk.inj (Except.ok.inj reported)
  obtain ⟨_, rfl⟩ := Prod.mk.inj (Except.ok.inj again)
  have counting := foldl_counted (f := f) values {}
  have countingAgain := foldl_counted (f := f) otherValues {}
  rw [List.foldl_map] at counting countingAgain
  rw [counting, countingAgain, same.countP_eq, same.countP_eq, (same.map _).sum_eq, (same.map _).sum_eq]

/-! ## The run -/

/-- A run over well-made entries ends with its detection. -/
theorem runDetecting_ends (orders : ReportOrders) (kinds : ∀ node ∈ allApi, OneKind node.object.value)
    (detected : detectingVul f.toProgram ((machine.nodeOrder.arrange allApi).map (·.object.value)) {} = .ok ((), d)) :
    ∃ result, runDetecting f machine orders allApi = .ok result := by
  have arranged : ∀ node ∈ machine.nodeOrder.arrange allApi, OneKind node.object.value :=
    fun node listed => kinds node (machine.nodeOrder.mem_arrange.mp listed)
  obtain ⟨⟨text, summary⟩, items, detail⟩ := reports_written orders detected
  obtain ⟨result, dumped⟩ : ∃ result, dumpVul f orders (machine.nodeOrder.arrange allApi) d = .ok result := by
    simp only [dumpVul, summary, detail, simpleReport_ok arranged]
    exact ⟨_, rfl⟩
  exact ⟨result, bind_ok.mpr ⟨((), d), mapError_ok.mpr detected, mapError_ok.mpr dumped⟩⟩

/-- A detection over the same entries in another order ends as well. It finds and
counts the same, and its details differ in the services of a class at most. -/
theorem detecting_again (another : Machine) (otherOrders : ReportOrders) (kinds : ∀ node ∈ allApi, OneKind node.object.value)
    (kindsAgain : ∀ node ∈ otherApi, OneKind node.object.value)
    (same : ((machine.nodeOrder.arrange allApi).map (·.object.value)).Perm
      ((another.nodeOrder.arrange otherApi).map (·.object.value)))
    (ran : runDetecting f machine orders allApi = .ok result) :
    ∃ other, runDetecting f another otherOrders otherApi = .ok other ∧ SameFindings result.detection other.detection ∧
      result.counts = other.counts ∧ ∀ text, Indistinct ((machine.nodeOrder.arrange allApi).map (·.object.value)) text →
        (result.resultsJson.map text).Perm (other.resultsJson.map text) := by
  obtain ⟨detected, _, saved, reported⟩ := runDetecting_ok ran
  obtain ⟨d, ends⟩ : ∃ d, detectingVul f.toProgram ((another.nodeOrder.arrange otherApi).map (·.object.value)) {} =
      .ok ((), d) := by
    have ends := (detection_ok_iff _ _).mp ⟨_, detected⟩
    simp only [FoundIn, same.mem_iff] at ends
    exact (detection_ok_iff _ _).mpr ends
  obtain ⟨other, ranAgain⟩ := runDetecting_ends otherOrders kindsAgain ends
  obtain ⟨detectedAgain, _, savedAgain, reportedAgain⟩ := runDetecting_ok ranAgain
  have findings := same_findings same detected detectedAgain
  refine ⟨other, ranAgain, findings, ?_, fun text indistinct => ?_⟩
  · exact counts_perm (fun node listed => kinds node (machine.nodeOrder.mem_arrange.mp listed)) same reported reportedAgain
  · exact saveDetail_perm same findings (detection_recorded detected) (detection_recorded detectedAgain) indistinct
      saved savedAgain

theorem arranged_values (machine : Machine) (held : (allApi.map (·.object.value)).Perm apis) :
    ((machine.nodeOrder.arrange allApi).map (·.object.value)).Perm apis :=
  ((machine.nodeOrder.arrange_perm allApi).map _).trans held

/-- Each class of a service is registered under one name. -/
def OneName (services : List ServiceApiClass) : Prop :=
  ∀ a ∈ services, ∀ b ∈ services, a.implClass = b.implClass → a.serviceName = b.serviceName

/-- Two runs left the same: the same record, findings and counts, and details that
differ in the names of services at most, and in nothing where each class has one
name. -/
structure SameOutcome (f : Framework) (rounds : ℕ) (outcome other : Outcome) : Prop where
  record : outcome.serviceApiJson.Perm other.serviceApiJson
  findings : SameFindings outcome.result.detection other.result.detection
  counts : outcome.result.counts = other.result.counts
  details : (outcome.result.resultsJson.map unnamed).Perm (other.result.resultsJson.map unnamed)
  named : ∀ services, extractServiceImpl f rounds = .ok services → OneName services →
    outcome.result.resultsJson.Perm other.result.resultsJson

/-- A run that ends on one machine ends on every machine, and leaves the same. -/
theorem machine_irrelevant (ran : runAnalysis f machine orders dataOrder rounds = .ok outcome) (another : Machine)
    (otherOrders : ReportOrders) (otherDataOrder : HashOrder ApiData) :
    ∃ other, runAnalysis f another otherOrders otherDataOrder rounds = .ok other ∧ SameOutcome f rounds outcome other := by
  obtain ⟨allApi, extracting, rest⟩ := bind_ok.mp ran
  obtain ⟨result, detecting, left⟩ := bind_ok.mp rest
  obtain rfl := Except.ok.inj left
  have extracted := mapError_ok.mp extracting
  obtain ⟨helpers, helping, later⟩ := bind_ok.mp extracted
  obtain ⟨services, serving, _⟩ := bind_ok.mp later
  obtain ⟨entries, registered, held⟩ := registry_values machine helping serving
  obtain rfl := Except.ok.inj (extracted.symm.trans registered)
  obtain ⟨otherApi, extractedAgain, heldAgain⟩ := registry_values another helping serving
  have shown := arranged_values machine held
  have shownAgain := arranged_values another heldAgain
  have same := shown.trans shownAgain.symm
  obtain ⟨kinds, _⟩ := extracted_kinds extracted
  obtain ⟨kindsAgain, _⟩ := extracted_kinds extractedAgain
  obtain ⟨other, ranAgain, findings, counts, details⟩ :=
    detecting_again another otherOrders kinds kindsAgain same (mapError_ok.mp detecting)
  refine ⟨⟨saveResults another otherDataOrder otherApi, other⟩,
    bind_ok.mpr ⟨otherApi, mapError_ok.mpr extractedAgain, bind_ok.mpr ⟨other, mapError_ok.mpr ranAgain, rfl⟩⟩, ?_⟩
  constructor
  · refine (dataOrder.arrange_perm _).trans (.trans ?_ (otherDataOrder.arrange_perm _).symm)
    simpa only [List.map_map, Function.comp_def] using same.map getDataClass
  · exact findings
  · exact counts
  · exact details unnamed fun _ _ _ _ _ _ _ _ => rfl
  · intro known serving' oneName
    obtain rfl := Except.ok.inj (serving.symm.trans serving')
    have service (api : ServiceApiClass) (listed : api ∈ (machine.nodeOrder.arrange allApi).map (·.object.value))
        (cls : SootClass) (implements_ : api.implClass = some cls) : api ∈ services := by
      refine (List.mem_append.mp (shown.mem_iff.mp listed)).resolve_left fun helper => ?_
      simp [(helpers_only helping helper).2] at implements_
    have all := details id fun item a inside b listed cls first second => by
      rw [oneName a (service a inside cls first) b (service b listed cls second) (first.trans second.symm)]
    simpa using all

/-- The last element first. -/
def reversedOrder : HashOrder α := ⟨List.reverse, List.reverse_perm⟩

def reversedMachine : Machine := ⟨fun id => BitVec.ofNat 32 id, insertionOrder, reversedOrder⟩

def reversedOrders : ReportOrders := ⟨reversedOrder, reversedOrder⟩

theorem machine_irrelevant_serving : ∃ outcome,
    runAnalysis serving.toFramework sampleMachine sampleOrders insertionOrder 5 = .ok outcome ∧
    ∃ other, runAnalysis serving.toFramework reversedMachine reversedOrders reversedOrder 5 = .ok other ∧
      SameOutcome serving.toFramework 5 outcome other := by
  have ends : (runAnalysis serving.toFramework sampleMachine sampleOrders insertionOrder 5).toOption.isSome = true := by
    decide +kernel
  cases ran : runAnalysis serving.toFramework sampleMachine sampleOrders insertionOrder 5 with
  | error problem =>
    rw [ran] at ends
    cases ends
  | ok outcome => exact ⟨outcome, rfl, machine_irrelevant ran reversedMachine reversedOrders reversedOrder⟩

/-- The class of the service is registered a second time, under another name. -/
def twiceNamed : Framework :=
  let program : Program := { listening.toProgram with
    retrieveActiveBody := fun mtd => if mtd.name = "start" then
        some { units := [.assign (.immediate (.loc ⟨"service", 2⟩)) (.newExpr ⟨"Service"⟩),
          invocation .static "android.os.ServiceManager" "addService" [.constant "listen", .loc ⟨"service", 2⟩],
          invocation .static "android.os.ServiceManager" "addService" [.constant "hear", .loc ⟨"service", 2⟩]] }
      else listening.retrieveActiveBody mtd }
  { listening with toProgram := program }

/-- Which of the names the details show is up to the machine. -/
example : ((runAnalysis twiceNamed sampleMachine sampleOrders insertionOrder 5).toOption.map
      fun outcome => outcome.result.resultsJson.map VulData.serviceName) = some ["listen", "listen"] ∧
    ((runAnalysis twiceNamed reversedMachine sampleOrders insertionOrder 5).toOption.map
      fun outcome => outcome.result.resultsJson.map VulData.serviceName) = some ["hear", "hear"] := by
  decide +kernel

end JgreAnalysis.MachineIndependence
