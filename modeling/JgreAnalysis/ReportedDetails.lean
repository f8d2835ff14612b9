import JgreAnalysis.DetectionReports

/-! What the detailed report of a run says, told from the registry and the program.
Which items it has is exact: a search from an implemented method found each. What
an item then says of its method holds in the program. -/
namespace JgreAnalysis.ReportedDetails
open SootModel ExitPointChecker FrameworkScene CallGraphSearch CallGraphVerdict ServiceApi ServiceRegistry
open VulnerabilitiesDetecting AnalysisHelperApi DetectionReports
open BoundedReach LoopLaws SiteWalks FirstComeSearch GroupedSets StoredHashes

/-! ## What the two passes find -/

variable {f : Framework} {machine : Machine} {orders : ReportOrders} {p : Program}

/-- The map holds for each of its methods what a fresh search from it reports. -/
def Searched (p : Program) (d : Detection) : Prop :=
  ∀ mtd vul, d.vulMap.lookup mtd = some vul → ∃ final, freshAnalysis p callGraphLev mtd = .ok (some vul, final)

theorem analysisImplMethod_searched (searched : Searched p d)
    (ran : analysisImplMethod p methods mtd d = .ok ((), next)) : Searched p next := by
  rcases analysisImplMethod_cases p methods mtd d with ⟨_, vul, st, found, step⟩ | ⟨_, step⟩ | ⟨_, _, _, step⟩
  · rw [step] at ran
    cases ran
    intro m other stored
    by_cases same : m = mtd
    · subst same
      rw [AList.lookup_insert] at stored
      cases stored
      exact ⟨st, found⟩
    · rw [AList.lookup_insert_ne same] at stored
      exact searched m other stored
  · rw [step] at ran
    cases ran
    exact searched
  · rw [step] at ran
    cases ran

theorem analysisService_searched (searched : Searched p d) (ran : analysisService p api d = .ok ((), next)) :
    Searched p next := by
  unfold analysisService at ran
  split at ran
  · cases ran
    exact searched
  · cases implemented : api.implClass with
    | none =>
      rw [implemented] at ran
      cases ran
    | some implClass =>
      rw [implemented] at ran
      exact each_keeps (Searched p) (p.methods implClass)
        (fun mtd _ state next kept ran => analysisImplMethod_searched kept ran) searched ran

/-- The second pass leaves the map as it is. -/
theorem analysisHelper_searched (searched : Searched p d) (ran : analysisHelper p api d = .ok ((), next)) :
    Searched p next := by
  unfold analysisHelper at ran
  cases helper : api.helperClass with
  | none =>
    rw [helper] at ran
    cases ran
    exact searched
  | some helperClass =>
    rw [helper] at ran
    refine each_keeps (Searched p) (p.methods helperClass) ?_ searched ran
    intro mtd _ state next kept ran
    rcases analysisHelperMethod_cases p mtd state with ⟨_, _, step⟩ | ⟨_, step⟩ | ⟨_, _, step⟩
    · rw [step] at ran
      cases ran
      exact kept
    · rw [step] at ran
      cases ran
      exact kept
    · rw [step] at ran
      cases ran

theorem detection_searched (ran : detectingVul p apiList {} = .ok ((), d)) : Searched p d := by
  obtain ⟨_, middle, services, helpers⟩ := state_bind_ok.mp ran
  have start : Searched p {} := by simp [Searched]
  have found : Searched p middle := each_keeps (Searched p) apiList
    (fun api _ state next kept ran => analysisService_searched kept ran) start services
  exact each_keeps (Searched p) apiList (fun api _ state next kept ran => analysisHelper_searched kept ran) found helpers

/-! ## The items of a report -/

variable (f)

/-- The item of a finding, under the name of a service. -/
def detail (service : ServiceApiClass) (vul : VulnerableApiDesc) : VulData :=
  { getData f vul with serviceName := service.serviceName.getD "" }

/-- What an item says of a method holds in the program. The chain is one of calls
from the method, and an insertion into the list that is named lies within reach,
as does an exit point. -/
structure Evidence (mtd : SootMethod) (item : VulData) : Prop where
  named : item.mtd = f.signature mtd
  chain : ∃ chain : List SootMethod, item.callChain = chain.map f.signature ∧ chain.head? = some mtd ∧
    chain.length ≤ callGraphLev ∧ chain.Nodup ∧ chain.IsChain (FollowedEdge f.toProgram) ∧
    ∃ last, chain.getLast? = some last ∧ (InsertsBinder f.toProgram last ∨ SetsExitPoint f.toProgram last)
  inserted : ∃ origin, ReachedWithin (FollowedEdge f.toProgram) callGraphLev mtd origin ∧
    ∃ found flag, check f.toProgram origin = .ok (some found, flag) ∧ found.listTag = item.listTag
  exits : ∃ exit, ReachedWithin (FollowedEdge f.toProgram) callGraphLev mtd exit ∧ SetsExitPoint f.toProgram exit

variable {f}

theorem mem_foundVuls (f : Framework) (d : Detection) (mtd : SootMethod) (vul : VulnerableApiDesc) :
    (mtd, vul) ∈ foundVuls f d ↔ d.vulMap.lookup mtd = some vul := by
  refine ⟨lookup_foundVuls, fun stored => List.mem_filterMap.mpr ⟨mtd, ?_, by simp [stored]⟩⟩
  have inside : mtd ∈ d.vulMap := AList.lookup_isSome.mp (by simp [stored])
  exact f.hashOrder.mem_arrange.mpr (AList.mem_keys.mp inside)

/-- The details have the findings in the classes that an entry names. -/
theorem mem_saveDetail (recorded : Recorded f.toProgram apiList d) (ran : saveDetail f orders apiList d = .ok items)
    (item : VulData) : item ∈ items ↔ ∃ mtd vul, d.vulMap.lookup mtd = some vul ∧
      ∃ service, getServiceApiForImpl apiList mtd.declaringClass = some service ∧ item = detail f service vul := by
  rw [saveDetail, groupByClass_ok recorded] at ran
  obtain rfl := Except.ok.inj ran
  have grouped (cls : SootClass) (it : VulData) :
      it ∈ ((putAll id ∅ (groupedItems f d fun _ vul => getData f vul)).lookup cls).getD [] ↔
        ∃ mtd vul, d.vulMap.lookup mtd = some vul ∧ mtd.declaringClass = cls ∧ getData f vul = it := by
    rw [lookup_putAll, KeyedSets.mem_addAll, mem_groupOf]
    simp [groupedItems, mem_foundVuls]
  rw [List.mem_flatMap]
  constructor
  · rintro ⟨cls, _, member⟩
    cases known : getServiceApiForImpl apiList cls with
    | none => simp [known] at member
    | some service =>
      rw [known] at member
      obtain ⟨it, inside, rfl⟩ := List.mem_map.mp member
      obtain ⟨mtd, vul, stored, rfl, rfl⟩ := (grouped cls it).mp (orders.dataOrder.mem_arrange.mp inside)
      exact ⟨mtd, vul, stored, service, known, rfl⟩
  · rintro ⟨mtd, vul, stored, service, known, rfl⟩
    have inside : mtd ∈ d.vulSet := (recorded.sameMethods mtd).mpr (AList.lookup_isSome.mp (by simp [stored]))
    refine ⟨mtd.declaringClass, f.classOrder.mem_arrange.mpr ((mem_groups recorded).mpr ⟨mtd, inside, rfl⟩), ?_⟩
    rw [known]
    exact List.mem_map_of_mem (orders.dataOrder.mem_arrange.mpr ((grouped _ _).mpr ⟨mtd, vul, stored, rfl, rfl⟩))

/-- A report of a search has its evidence. -/
theorem evidence_of_found (found : freshAnalysis f.toProgram callGraphLev mtd = .ok (some vul, final))
    (service : ServiceApiClass) : Evidence f mtd (detail f service vul) := by
  obtain ⟨entered, before, call, after, split, reports⟩ := reported_at found
  have made (other : Call CallSite) (member : other ∈ before ++ [call]) :
      other ∈ madeCalls f.toProgram callGraphLev mtd := by
    rw [split, List.append_cons]
    exact List.mem_append_left _ member
  have here : call ∈ before ++ [call] := List.mem_append_right _ (List.mem_singleton_self call)
  obtain ⟨last, _, leads, _⟩ := reports.checked call here
  obtain ⟨between, spelled, short, linked, ends⟩ := firstComers_chain rfl (made call here) leads
  have chain : vul.callChain = mtd :: between := reports.callChain.trans spelled
  obtain ⟨first, origin, ⟨goes, _, earlier, later, listed, _⟩, _, answer, flag, checked, same⟩ := reports.last
  have inside : first ∈ before ++ [call] := by simp [listed]
  have tagged : vul.listTag = answer.listTag := by rw [same]
  obtain ⟨inserting, exit, exitMember, exits⟩ := reports.complete
  obtain ⟨exitCall, exitMade, exitLeads⟩ := mem_targets.mp exitMember
  constructor
  · simp [detail, getData, entered]
  · refine ⟨mtd :: between, congrArg (List.map f.signature) chain, rfl, short,
      spelled ▸ firstComers_nodup (made call here), edge_eq_followed ▸ linked, last, ends, ?_⟩
    -- a call that brought neither would have left the pair as open as it was
    by_contra neither
    obtain ⟨silent, outside⟩ := not_or.mp neither
    have brought (holds : SootMethod → Prop) (away : ¬ holds last)
        (seen : ∃ other ∈ targets (callGraph f.toProgram) (before ++ [call]), holds other) :
        ∃ other ∈ targets (callGraph f.toProgram) before, holds other := by
      rw [targets_append, targets_cons call leads] at seen
      simpa [away] using seen
    exact reports.pending ⟨brought _ silent inserting, brought _ outside reports.complete.2⟩
  · exact ⟨origin, made_reach (made first inside) goes, answer, flag, checked, tagged.symm⟩
  · exact ⟨exit, made_reach (made exitCall exitMade) exitLeads, exits⟩

/-- The details have one item for each method that a service implements and a
search reports from, under the name of the first entry with its class; and the
program bears out what each item says. -/
theorem details_exact (ran : runDetecting f machine orders allApi = .ok result) :
    (∀ item, item ∈ result.resultsJson ↔ ∃ api ∈ (machine.nodeOrder.arrange allApi).map (·.object.value), ∃ mtd,
      Implements f.toProgram api mtd ∧ ∃ vul final, freshAnalysis f.toProgram callGraphLev mtd = .ok (some vul, final) ∧
      ∃ service, getServiceApiForImpl ((machine.nodeOrder.arrange allApi).map (·.object.value)) mtd.declaringClass =
        some service ∧ item = detail f service vul) ∧
    ∀ item ∈ result.resultsJson, ∃ mtd ∈ result.detection.vulSet, Evidence f mtd item := by
  obtain ⟨detected, _, saved, _⟩ := runDetecting_ok ran
  have recorded := detection_recorded detected
  have searched := detection_searched detected
  obtain ⟨found, _⟩ := detection_finds detected
  refine ⟨fun item => ?_, fun item member => ?_⟩
  · rw [mem_saveDetail recorded saved]
    constructor
    · rintro ⟨mtd, vul, stored, named⟩
      obtain ⟨final, reported⟩ := searched mtd vul stored
      have inside := (recorded.sameMethods mtd).mpr (AList.lookup_isSome.mp (by simp [stored]))
      obtain ⟨api, listed, implements_, _⟩ := (found mtd).mp inside
      exact ⟨api, listed, mtd, implements_, vul, final, reported, named⟩
    · rintro ⟨api, listed, mtd, implements_, vul, final, reported, named⟩
      have inside := (recorded.sameMethods mtd).mp ((found mtd).mpr ⟨api, listed, implements_, vul, final, reported⟩)
      obtain ⟨stored, lookedUp⟩ := Option.isSome_iff_exists.mp (AList.lookup_isSome.mpr inside)
      obtain ⟨_, again⟩ := searched mtd stored lookedUp
      rw [reported] at again
      cases again
      exact ⟨mtd, vul, lookedUp, named⟩
  · obtain ⟨mtd, vul, stored, service, _, rfl⟩ := (mem_saveDetail recorded saved item).mp member
    obtain ⟨final, reported⟩ := searched mtd vul stored
    exact ⟨mtd, (recorded.sameMethods mtd).mpr (AList.lookup_isSome.mp (by simp [stored])), evidence_of_found reported service⟩

theorem details_exact_listening : ∃ result, runDetecting listening sampleMachine sampleOrders listeningApis = .ok result ∧
    (∀ item, item ∈ result.resultsJson ↔
      ∃ api ∈ (sampleMachine.nodeOrder.arrange listeningApis).map (·.object.value), ∃ mtd,
        Implements listening.toProgram api mtd ∧
        ∃ vul final, freshAnalysis listening.toProgram callGraphLev mtd = .ok (some vul, final) ∧
        ∃ service, getServiceApiForImpl ((sampleMachine.nodeOrder.arrange listeningApis).map (·.object.value))
          mtd.declaringClass = some service ∧ item = detail listening service vul) ∧
    ∀ item ∈ result.resultsJson, ∃ mtd ∈ result.detection.vulSet, Evidence listening mtd item :=
  ⟨_, rfl, details_exact rfl⟩

/-- One of the two findings leads through a call, the other is its target. -/
example : ((runDetecting listening sampleMachine sampleOrders listeningApis).toOption.map RunResult.resultsJson) = some
    [{ serviceName := "listen", mtd := "Service: target", listTag := "android.os.RemoteCallbackList",
       callChain := ["Service: target"] },
     { serviceName := "listen", mtd := "Service: listen", listTag := "android.os.RemoteCallbackList",
       callChain := ["Service: listen", "Service: target"] }] := by
  decide +kernel

end JgreAnalysis.ReportedDetails
