import JgreAnalysis.CallGraphSearch

/-! What the verdict of a search says about the program. Between the search and
the program stands its memory: the calls entered so far, the last insertion
among them and whether an exit point was among them. The search reports at the
first call that completes the pair, and a quiet search never completed it. -/
namespace JgreAnalysis.CallGraphVerdict
open SootModel ExitPointChecker ImplicitCallResolver CallGraphSearch
open BoundedReach LoopLaws SiteWalks FirstComeSearch

variable (p : Program)

/-- One method leads to another by a non-interface invoke in its body, resolved
directly or as an implicit call. -/
def FollowedEdge (mtd callee : SootMethod) : Prop :=
  ∃ u ∈ p.units mtd, ∃ inv, u.invokeExpr? = some inv ∧ inv.isInterface = false ∧
    if isImplicitCall p inv then callee ∈ resolve p inv mtd else p.resolve inv.methodRef = .ok callee

/-- `containBinderList` finds an insertion in the method. -/
def InsertsBinder (mtd : SootMethod) : Prop := ∃ vul flag, check p mtd = .ok (some vul, flag)

/-- The check of the method sets `containExitPoint`. -/
def SetsExitPoint (mtd : SootMethod) : Prop := ∃ found, check p mtd = .ok (found, true)

/-- The check of the method allocated this description. The search fills in
the entry point and the chain later. -/
def Produced (mtd : SootMethod) (vul : VulnerableApiDesc) : Prop :=
  vul.checked = mtd ∧ ∃ found flag, check p mtd = .ok (some found, flag) ∧
    vul = { found with entryPoint := vul.entryPoint, callChain := vul.callChain }

/-! ## Followed edges are the edges of the call graph -/

variable {p}

theorem ok_mem_calleesOf (mtd callee : SootMethod) (u : Stmt) :
    .ok callee ∈ calleesOf p mtd u ↔ ∃ inv, u.invokeExpr? = some inv ∧ inv.isInterface = false ∧
      if isImplicitCall p inv then callee ∈ resolve p inv mtd else p.resolve inv.methodRef = .ok callee := by
  unfold calleesOf
  cases u.invokeExpr? with
  | none => simp
  | some inv =>
    cases interface : inv.isInterface with
    | true => simp [interface]
    | false =>
      by_cases implicit : isImplicitCall p inv = true
      · have called : calledMethods p mtd inv =
            .ok (p.hashOrder.arrange (KeyedSets.addAll id [] (resolve p inv mtd))) := by
          simp only [calledMethods, if_pos implicit]
          rfl
        simp [called, implicit, interface, HashOrder.mem_arrange, KeyedSets.mem_addAll]
      · cases resolved : p.resolve inv.methodRef with
        | error problem =>
          have called : calledMethods p mtd inv = .error problem := by
            simp only [calledMethods, if_neg implicit, resolved]
            rfl
          simp [called, implicit, interface, resolved]
        | ok target =>
          have called : calledMethods p mtd inv = .ok (p.hashOrder.arrange [target]) := by
            simp only [calledMethods, if_neg implicit, resolved]
            rfl
          simp [called, implicit, interface, resolved, HashOrder.mem_arrange]

theorem mem_sites (mtd : SootMethod) (callee : Except ResolutionFailed SootMethod) :
    (∃ site ∈ (callGraph p).sites mtd, site.1 = callee) ↔ ∃ u ∈ p.units mtd, callee ∈ calleesOf p mtd u := by
  have listed : ((callGraph p).sites mtd).map Prod.fst = (p.units mtd).flatMap (calleesOf p mtd) :=
    List.zipIdx_map_fst ..
  rw [← List.mem_flatMap, ← listed, List.mem_map]

theorem edge_iff_followed (mtd callee : SootMethod) :
    Edge (callGraph p) mtd callee ↔ FollowedEdge p mtd callee := by
  refine (mem_sites mtd (.ok callee)).trans ?_
  simp only [ok_mem_calleesOf, FollowedEdge]

theorem edge_eq_followed : Edge (callGraph p) = FollowedEdge p := by
  funext mtd callee
  exact propext (edge_iff_followed mtd callee)

/-- Where methods resolve, no call site fails. -/
theorem sites_lead (resolve : MethodsResolve p) (mtd : SootMethod) (site : CallSite)
    (member : site ∈ (callGraph p).sites mtd) : ∃ callee, (callGraph p).follow site = .ok callee := by
  obtain ⟨u, inside, called⟩ := (mem_sites mtd site.1).mp ⟨site, member, rfl⟩
  cases target : site.1 with
  | ok callee => exact ⟨callee, target⟩
  | error problem =>
    rw [target] at called
    unfold calleesOf at called
    cases invoked : u.invokeExpr? with
    | none => simp [invoked] at called
    | some inv =>
      simp only [invoked] at called
      split at called
      · cases called
      · rename_i other
        obtain ⟨callee, resolved⟩ := resolve mtd u inside inv invoked (by simpa using other)
        have known : ∃ methods, calledMethods p mtd inv = .ok methods := by
          unfold calledMethods
          split
          · exact ⟨_, rfl⟩
          · simp only [resolved]
            exact ⟨_, rfl⟩
        obtain ⟨methods, known⟩ := known
        simp [known] at called

/-! ## The memory of a search -/

variable (p)

/-- Among the calls are an insertion and an exit point. -/
def Complete (calls : List (Call CallSite)) : Prop :=
  (∃ mtd ∈ targets (callGraph p) calls, InsertsBinder p mtd) ∧ ∃ mtd ∈ targets (callGraph p) calls, SetsExitPoint p mtd

/-- The last call that leads to an insertion, among some calls. -/
def LastInsertion (calls : List (Call CallSite)) (call : Call CallSite) (mtd : SootMethod) : Prop :=
  (callGraph p).follow call.2 = .ok mtd ∧ InsertsBinder p mtd ∧ ∃ before after, calls = before ++ call :: after ∧
    ∀ later ∈ targets (callGraph p) after, ¬ InsertsBinder p later

theorem complete_append {p : Program} (complete : Complete p first) (rest : List (Call CallSite)) :
    Complete p (first ++ rest) := by
  obtain ⟨⟨mtd, member, inserts⟩, other, inside, exit⟩ := complete
  rw [Complete, targets_append]
  exact ⟨⟨mtd, Finset.mem_union_left _ member, inserts⟩, other, Finset.mem_union_left _ inside, exit⟩

/-- What the fields of a search say about the calls it has made. -/
structure Remembers (calls : List (Call CallSite)) (st : SearchState) : Prop where
  visitSet : st.visitSet = targets (callGraph p) calls
  exit : st.containExitPoint = true ↔ ∃ mtd ∈ targets (callGraph p) calls, SetsExitPoint p mtd
  inserted : st.vul = none → ∀ mtd ∈ targets (callGraph p) calls, ¬ InsertsBinder p mtd
  last : ∀ vul, st.vul = some vul → ∃ call mtd, LastInsertion p calls call mtd ∧ Produced p mtd vul

/-- The call leads to a method, and the check of the method does not fail. -/
def Checked (call : Call CallSite) : Prop :=
  ∃ mtd found, (callGraph p).follow call.2 = .ok mtd ∧ check p mtd = .ok found

variable {p}

theorem not_insertsBinder (checked : check p mtd = .ok (none, flag)) : ¬ InsertsBinder p mtd := by
  rintro ⟨vul, other, found⟩
  rw [checked] at found
  cases found

theorem setsExitPoint_iff (checked : check p mtd = .ok found) : SetsExitPoint p mtd ↔ found.2 = true := by
  constructor
  · rintro ⟨answer, flagged⟩
    rw [checked] at flagged
    cases flagged
    rfl
  · intro flagged
    exact ⟨found.1, by rw [checked, ← flagged]⟩

/-- The later of two insertions is the last one only when they are the same. -/
private theorem not_earlier (inserts : InsertsBinder p mtd) (leads : (callGraph p).follow call.2 = .ok mtd)
    (silent : ∀ later ∈ targets (callGraph p) after, ¬ InsertsBinder p later)
    (same : rival :: after = between ++ call :: rest) : between = [] := by
  cases between with
  | nil => rfl
  | cons first between =>
    obtain ⟨_, tail⟩ := List.cons.inj same
    refine absurd inserts (silent mtd (mem_targets.mpr ⟨call, ?_, leads⟩))
    rw [tail]
    exact List.mem_append_right _ List.mem_cons_self

theorem lastInsertion_unique (one : LastInsertion p calls call mtd) (other : LastInsertion p calls rival origin) :
    call = rival ∧ mtd = origin := by
  obtain ⟨leads, inserts, before, after, rfl, silent⟩ := one
  obtain ⟨goes, found, earlier, rest, split, quiet⟩ := other
  have same : call = rival := by
    rcases List.append_eq_append_iff.mp split with ⟨between, _, joined⟩ | ⟨between, _, joined⟩
    · rw [not_earlier found goes silent joined] at joined
      exact (List.cons.inj joined).1
    · rw [not_earlier inserts leads quiet joined] at joined
      exact (List.cons.inj joined).1.symm
  subst same
  rw [leads] at goes
  exact ⟨rfl, Except.ok.inj goes⟩

theorem remembers_nil : Remembers p [] {} where
  visitSet := rfl
  exit := by simp
  inserted := by simp
  last := by simp

/-- One entered method is added to the memory. -/
theorem remembers_snoc (old : Remembers p calls st) (leads : (callGraph p).follow call.2 = .ok mtd)
    (checked : check p mtd = .ok found) : Remembers p (calls ++ [call]) ((st.mark mtd).note found) := by
  have reached : targets (callGraph p) (calls ++ [call]) = insert mtd (targets (callGraph p) calls) := by
    rw [targets_append, targets_cons call leads]
    simp
  refine ⟨?_, ?_, ?_, ?_⟩
  · rw [reached, ← old.visitSet]
    rfl
  · rw [reached, Finset.exists_mem_insert, ← old.exit, setsExitPoint_iff checked]
    simp only [SearchState.note, SearchState.mark, Bool.or_eq_true]
    exact or_comm
  · intro none
    obtain ⟨answer, flag⟩ := found
    cases answer with
    | some vul => cases none
    | none =>
      rw [reached, Finset.forall_mem_insert]
      exact ⟨not_insertsBinder checked, old.inserted none⟩
  · intro vul remembered
    obtain ⟨answer, flag⟩ := found
    cases answer with
    | some answer =>
      cases remembered
      exact ⟨call, mtd, ⟨leads, ⟨vul, flag, checked⟩, calls, [], rfl, by simp⟩, check_checked checked, vul, flag, checked, rfl⟩
    | none =>
      obtain ⟨first, origin, ⟨goes, inserts, before, after, split, silent⟩, produced⟩ := old.last vul remembered
      refine ⟨first, origin, ⟨goes, inserts, before, after ++ [call], by simp [split], ?_⟩, produced⟩
      rw [targets_append, targets_cons call leads, targets_nil, Finset.union_insert, Finset.union_empty,
        Finset.forall_mem_insert]
      exact ⟨not_insertsBinder checked, silent⟩

/-- The verdict stands exactly when the pair is complete. -/
theorem verdict_iff_complete (memory : Remembers p calls st) :
    (∃ vul, st.verdict = some vul) ↔ Complete p calls := by
  unfold SearchState.verdict Complete
  rw [← memory.exit]
  constructor
  · rintro ⟨vul, reported⟩
    split at reported
    · obtain ⟨call, mtd, ⟨leads, inserts, before, after, split, _⟩, _⟩ := memory.last vul reported
      refine ⟨⟨mtd, mem_targets.mpr ⟨call, ?_, leads⟩, inserts⟩, ‹_›⟩
      rw [split]
      exact List.mem_append_right _ List.mem_cons_self
    · cases reported
  · rintro ⟨⟨mtd, member, inserts⟩, exit⟩
    rw [if_pos exit]
    cases remembered : st.vul with
    | none => exact absurd inserts (memory.inserted remembered mtd member)
    | some vul => exact ⟨vul, rfl⟩

theorem verdict_none_iff (memory : Remembers p calls st) : st.verdict = none ↔ ¬ Complete p calls := by
  rw [← verdict_iff_complete memory, ← not_iff_not, not_not]
  exact Option.ne_none_iff_exists'

/-! ## One call of the scan -/

/-- A call that does not fail enters its method and reports when that completes
the verdict. -/
theorem arrive_checked (leads : (callGraph p).follow call.2 = .ok mtd) (checked : check p mtd = .ok found)
    (st : SearchState) : arrive (visitor p) call st =
      .ok (((st.mark mtd).note found).verdict.map
          (fun vul => { vul with callChain := nodes (callGraph p) call.full }), (st.mark mtd).note found) := by
  rw [arrive_ok (visitor p) call leads, visitor_enter]
  exact enterMethod_ok checked call.full st

theorem checked_of_arrive (ran : arrive (visitor p) call st = .ok reply) : Checked p call := by
  cases leads : (callGraph p).follow call.2 with
  | error problem => simp [arrive_error (visitor p) call leads] at ran
  | ok mtd =>
    cases checked : check p mtd with
    | error problem =>
      rw [arrive_ok (visitor p) call leads, visitor_enter, enterMethod_error checked] at ran
      cases ran
    | ok found => exact ⟨mtd, found, leads, checked⟩

/-- A quiet stretch of the search remembers its calls, and none of them
completed the pair. -/
theorem quiet_remembers (quiet : calls.findSomeM? (arrive (visitor p)) {} = .ok (none, final)) :
    Remembers p calls final ∧ ¬ Complete p calls ∧ ∀ call ∈ calls, Checked p call := by
  have kept : Remembers p calls final ∧ final.verdict = none ∧ ∀ call ∈ calls, Checked p call := by
    refine loop_invariant (fun made st => Remembers p made st ∧ st.verdict = none ∧ ∀ call ∈ made, Checked p call)
      ?_ calls [] ⟨remembers_nil, rfl, by simp⟩ quiet
    rintro before call st next ⟨memory, _, sound⟩ ran
    obtain ⟨mtd, found, leads, checked⟩ := checked_of_arrive ran
    rw [arrive_checked leads checked] at ran
    obtain ⟨silent, rfl⟩ := Prod.mk.inj (Except.ok.inj ran)
    refine ⟨remembers_snoc memory leads checked, Option.map_eq_none_iff.mp silent, ?_⟩
    intro earlier member
    rcases List.mem_append.mp member with old | new
    · exact sound earlier old
    · exact List.mem_singleton.mp new ▸ ⟨mtd, found, leads, checked⟩
  obtain ⟨memory, silent, sound⟩ := kept
  exact ⟨memory, (verdict_none_iff memory).mp silent, sound⟩

/-- Calls that do not fail and do not complete the pair are passed quietly. -/
theorem quiet_of_pending (sound : ∀ call ∈ calls, Checked p call) (pending : ¬ Complete p calls) :
    ∃ final, calls.findSomeM? (arrive (visitor p)) {} = .ok (none, final) := by
  induction calls using List.reverseRecOn with
  | nil => exact ⟨{}, rfl⟩
  | append_singleton calls call ih =>
    have earlier : ¬ Complete p calls := fun complete => pending (complete_append complete [call])
    obtain ⟨middle, quiet⟩ := ih (fun call member => sound call (List.mem_append_left _ member)) earlier
    obtain ⟨mtd, found, leads, checked⟩ := sound call (List.mem_append_right _ (List.mem_singleton_self call))
    have memory := remembers_snoc (quiet_remembers quiet).1 leads checked
    refine ⟨(middle.mark mtd).note found, ?_⟩
    rw [loop_append, quiet]
    simp only [loop_cons, arrive_checked leads checked, (verdict_none_iff memory).mpr pending]
    rfl

/-! ## A fresh search -/

variable (p)

/-- The calls a fresh search makes, in order, unless it stops before: the calls
of the plain enumeration that are first to come to their method. -/
abbrev madeCalls (lev : ℕ) (e : SootMethod) : List (Call CallSite) :=
  firstComers (callGraph p) lev (.ok e, 0)

theorem freshAnalysis_eq_scan (lev : ℕ) (e : SootMethod) : freshAnalysis p lev e =
    match (madeCalls p lev e).findSomeM? (arrive (visitor p)) {} with
    | .error problem => .error problem
    | .ok (vul, st) => .ok (vul.map fun vul => { vul with entryPoint := some e }, st) := by
  have searched : callGraphAnalysis p lev e [] = search (visitor p) lev [] (.ok e, 0) :=
    callGraphAnalysis_eq_search p lev e 0 []
  rw [← search_eq_first_comers (visitor p) lev (.ok e, 0) {} rfl, ← searched]
  simp only [freshAnalysis, analysisEntryPoint, StateT.run, bind, StateT.bind, Except.bind]
  cases callGraphAnalysis p lev e [] {} <;> rfl

/-- The call at which a search reports: the pair was open before it, is
complete with it, and the last insertion is what is reported. -/
structure Reports (before : List (Call CallSite)) (call : Call CallSite) (vul : VulnerableApiDesc) : Prop where
  checked : ∀ made ∈ before ++ [call], Checked p made
  pending : ¬ Complete p before
  complete : Complete p (before ++ [call])
  last : ∃ first mtd, LastInsertion p (before ++ [call]) first mtd ∧ Produced p mtd vul
  callChain : vul.callChain = nodes (callGraph p) call.full

variable {p}

theorem quiet_iff : freshAnalysis p lev e = .ok (none, final) ↔
    (madeCalls p lev e).findSomeM? (arrive (visitor p)) {} = .ok (none, final) := by
  rw [freshAnalysis_eq_scan]
  cases (madeCalls p lev e).findSomeM? (arrive (visitor p)) {} with
  | error problem => simp
  | ok reply =>
    obtain ⟨answer, st⟩ := reply
    cases answer <;> simp

/-- A pair that is complete with a call, and was open before it, is reported at
that call. -/
theorem arrive_reports (e : SootMethod) (quiet : before.findSomeM? (arrive (visitor p)) {} = .ok (none, middle))
    (leads : (callGraph p).follow call.2 = .ok mtd) (checked : check p mtd = .ok found)
    (reported : ((middle.mark mtd).note found).verdict = some vul) :
    Reports p before call { vul with entryPoint := some e, callChain := nodes (callGraph p) call.full } := by
  obtain ⟨memory, pending, sound⟩ := quiet_remembers quiet
  have grown := remembers_snoc memory leads checked
  refine ⟨?_, pending, (verdict_iff_complete grown).mp ⟨vul, reported⟩, ?_, rfl⟩
  · intro earlier member
    rcases List.mem_append.mp member with old | new
    · exact sound earlier old
    · exact List.mem_singleton.mp new ▸ ⟨mtd, found, leads, checked⟩
  · have remembered : ((middle.mark mtd).note found).vul = some vul := by
      unfold SearchState.verdict at reported
      split at reported
      · exact reported
      · cases reported
    obtain ⟨first, origin, last, own, answer, flag, produced, same⟩ := grown.last vul remembered
    exact ⟨first, origin, last, own, answer, flag, produced, by rw [same]⟩

/-- Whatever is reported is reported at one of the calls. -/
theorem reported_at (found : freshAnalysis p lev e = .ok (some vul, final)) :
    vul.entryPoint = some e ∧ ∃ before call after, madeCalls p lev e = before ++ call :: after ∧
      Reports p before call vul := by
  rw [freshAnalysis_eq_scan] at found
  cases scanned : (madeCalls p lev e).findSomeM? (arrive (visitor p)) {} with
  | error problem => simp [scanned] at found
  | ok reply =>
    obtain ⟨answer, st⟩ := reply
    simp only [scanned, Except.ok.injEq, Prod.mk.injEq] at found
    obtain ⟨named, rfl⟩ := found
    obtain ⟨answer, rfl, rfl⟩ := Option.map_eq_some_iff.mp named
    obtain ⟨before, call, after, middle, split, quiet, last⟩ := (loop_found_iff _).mp scanned
    obtain ⟨mtd, found, leads, checked⟩ := checked_of_arrive last
    rw [arrive_checked leads checked] at last
    obtain ⟨named, _⟩ := Prod.mk.inj (Except.ok.inj last)
    obtain ⟨vul, reported, rfl⟩ := Option.map_eq_some_iff.mp named
    have reports := arrive_reports e quiet leads checked reported
    exact ⟨rfl, before, call, after, split, reports⟩

/-- And the first call to complete the pair does report. -/
theorem reported_of_split (split : madeCalls p lev e = before ++ call :: after)
    (sound : ∀ made ∈ before ++ [call], Checked p made) (pending : ¬ Complete p before)
    (complete : Complete p (before ++ [call])) :
    ∃ vul final, freshAnalysis p lev e = .ok (some vul, final) ∧ Reports p before call vul := by
  obtain ⟨middle, quiet⟩ := quiet_of_pending (fun made member => sound made (List.mem_append_left _ member)) pending
  obtain ⟨mtd, found, leads, checked⟩ := sound call (List.mem_append_right _ (List.mem_singleton_self call))
  have grown := remembers_snoc (quiet_remembers quiet).1 leads checked
  obtain ⟨vul, reported⟩ := (verdict_iff_complete grown).mpr complete
  refine ⟨_, (middle.mark mtd).note found, ?_, arrive_reports e quiet leads checked reported⟩
  rw [freshAnalysis_eq_scan, split, loop_append, quiet]
  simp only [loop_cons, arrive_checked leads checked, reported]
  rfl

/-- Where methods resolve, a search ends without an exception. -/
theorem freshAnalysis_total (resolve : MethodsResolve p) (lev : ℕ) (e : SootMethod) :
    ∃ reply, freshAnalysis p lev e = .ok reply := by
  have total : ∃ reply, (madeCalls p lev e).findSomeM? (arrive (visitor p)) {} = .ok reply := by
    apply loop_total
    intro call made st
    obtain ⟨mtd, leads⟩ := firstComers_leads (sites_lead resolve) rfl made
    obtain ⟨found, checked⟩ := check_total resolve mtd
    exact ⟨_, arrive_checked leads checked st⟩
  obtain ⟨reply, scanned⟩ := total
  rw [freshAnalysis_eq_scan, scanned]
  exact ⟨_, rfl⟩

/-- Where methods resolve, a search reports exactly when its calls complete the
pair. -/
theorem reported_iff_complete (resolve : MethodsResolve p) (lev : ℕ) (e : SootMethod) :
    (∃ vul final, freshAnalysis p lev e = .ok (some vul, final)) ↔ Complete p (madeCalls p lev e) := by
  constructor
  · rintro ⟨vul, final, found⟩
    obtain ⟨_, before, call, after, split, reports⟩ := reported_at found
    rw [split, List.append_cons]
    exact complete_append reports.complete after
  · intro complete
    obtain ⟨⟨answer, final⟩, ended⟩ := freshAnalysis_total resolve lev e
    cases answer with
    | none => exact absurd complete (quiet_remembers (quiet_iff.mp ended)).2.1
    | some vul => exact ⟨vul, final, ended⟩

theorem made_reach (made : call ∈ madeCalls p lev e) (leads : (callGraph p).follow call.2 = .ok mtd) :
    ReachedWithin (FollowedEdge p) lev e mtd :=
  edge_eq_followed ▸ firstComers_reach rfl made leads

/-- An insertion and an exit point in one statement. -/
def registering : Stmt := invocation (.virtual ⟨"callbacks", 0⟩) "android.os.RemoteCallbackList" "register" []

/-- An insertion alone: a new binder object goes into a list of the service. -/
def inserting : List Stmt :=
  [.assign (.immediate (.loc ⟨"callback", 0⟩)) (.newExpr ⟨"Callback"⟩),
    invocation (.virtual ⟨"list", 1⟩) "java.util.ArrayList" "add" [.loc ⟨"callback", 0⟩]]

def exiting : Stmt := invocation (.interface ⟨"callback", 0⟩) "android.os.IInterface" "asBinder" []

/-- The entry calls `second` directly, and before that through `first`. -/
def crossing : Program := sampleProgram fun name =>
  match name with
  | "entry" => [callTo "first", callTo "second"]
  | "first" => [callTo "second"]
  | "second" => [callTo "target"]
  | "target" => [registering]
  | _ => []

/-- The insertion and the exit point are in different branches. -/
def leaving : Program := sampleProgram fun name =>
  match name with
  | "entry" => [callTo "insert", callTo "exit"]
  | "insert" => inserting
  | "exit" => [exiting]
  | _ => []

theorem followedEdge_callTo (bodies : String → List Stmt) (name callee : String) (called : callTo callee ∈ bodies name) :
    FollowedEdge (sampleProgram bodies) (sampleMethod name) (sampleMethod callee) :=
  ⟨_, called, _, rfl, rfl, rfl⟩

/-! ## The verdicts -/

variable (p)

/-- Some chain of call sites that is first to come to every method on it, in
the order of the bodies, leads to the method. -/
def Uncut (lev : ℕ) (e mtd : SootMethod) : Prop := mtd ∈ targets (callGraph p) (madeCalls p lev e)

variable {p}

/-- A pair of an insertion and an exit point within reach is reported exactly
when an uncut chain leads to an insertion and another to an exit point. -/
theorem pair_reported_iff_uncut (resolve : MethodsResolve p) (lev : ℕ) (e : SootMethod) :
    ((∃ mtd, ReachedWithin (FollowedEdge p) lev e mtd ∧ InsertsBinder p mtd) →
      (∃ mtd, ReachedWithin (FollowedEdge p) lev e mtd ∧ SetsExitPoint p mtd) →
      ∃ vul final, freshAnalysis p lev e = .ok (some vul, final)) ↔
    ((∃ mtd, ReachedWithin (FollowedEdge p) lev e mtd ∧ InsertsBinder p mtd) →
      (∃ mtd, ReachedWithin (FollowedEdge p) lev e mtd ∧ SetsExitPoint p mtd) →
      (∃ mtd, Uncut p lev e mtd ∧ InsertsBinder p mtd) ∧ ∃ mtd, Uncut p lev e mtd ∧ SetsExitPoint p mtd) := by
  rw [reported_iff_complete resolve]
  rfl

theorem pair_reported_iff_uncut_crossing : MethodsResolve crossing ∧
    (((∃ mtd, ReachedWithin (FollowedEdge crossing) 3 (sampleMethod "entry") mtd ∧ InsertsBinder crossing mtd) →
      (∃ mtd, ReachedWithin (FollowedEdge crossing) 3 (sampleMethod "entry") mtd ∧ SetsExitPoint crossing mtd) →
      ∃ vul final, freshAnalysis crossing 3 (sampleMethod "entry") = .ok (some vul, final)) ↔
    ((∃ mtd, ReachedWithin (FollowedEdge crossing) 3 (sampleMethod "entry") mtd ∧ InsertsBinder crossing mtd) →
      (∃ mtd, ReachedWithin (FollowedEdge crossing) 3 (sampleMethod "entry") mtd ∧ SetsExitPoint crossing mtd) →
      (∃ mtd, Uncut crossing 3 (sampleMethod "entry") mtd ∧ InsertsBinder crossing mtd) ∧
        ∃ mtd, Uncut crossing 3 (sampleMethod "entry") mtd ∧ SetsExitPoint crossing mtd)) :=
  ⟨sampleProgram_resolves _, pair_reported_iff_uncut (sampleProgram_resolves _) 3 (sampleMethod "entry")⟩

theorem crossing_quiet : freshAnalysis crossing 3 (sampleMethod "entry") =
    .ok (none, { visitSet := {sampleMethod "second", sampleMethod "first", sampleMethod "entry"} }) := by
  decide +kernel

/-- `first` uses up the bound on the way to `second`, and the shorter way is cut
off by the mark it leaves. -/
theorem crossing_not_reported : MethodsResolve crossing ∧
    (∃ mtd, ReachedWithin (FollowedEdge crossing) 3 (sampleMethod "entry") mtd ∧ InsertsBinder crossing mtd) ∧
    (∃ mtd, ReachedWithin (FollowedEdge crossing) 3 (sampleMethod "entry") mtd ∧ SetsExitPoint crossing mtd) ∧
    ¬ ∃ vul final, freshAnalysis crossing 3 (sampleMethod "entry") = .ok (some vul, final) := by
  have reached : ReachedWithin (FollowedEdge crossing) 3 (sampleMethod "entry") (sampleMethod "target") :=
    ⟨2, by decide, .step (followedEdge_callTo _ "entry" "second" (by decide))
      (.step (followedEdge_callTo _ "second" "target" (by decide)) (.here _))⟩
  have both : check crossing (sampleMethod "target") = .ok (some
      { checked := sampleMethod "target", binderCls := ⟨"Service"⟩, listTag := "android.os.RemoteCallbackList" }, true) := by
    decide +kernel
  have silent := crossing_quiet
  refine ⟨sampleProgram_resolves _, ⟨_, reached, _, _, both⟩, ⟨_, reached, _, both⟩, ?_⟩
  rintro ⟨vul, final, found⟩
  rw [silent] at found
  cases found

theorem crossing_reported : freshAnalysis crossing 4 (sampleMethod "entry") = .ok (some
      { checked := sampleMethod "target", binderCls := ⟨"Service"⟩, listTag := "android.os.RemoteCallbackList",
        entryPoint := some (sampleMethod "entry"), callChain := ["entry", "first", "second", "target"].map sampleMethod },
    { visitSet := {sampleMethod "target", sampleMethod "second", sampleMethod "first", sampleMethod "entry"}
      vul := some
        { checked := sampleMethod "target", binderCls := ⟨"Service"⟩, listTag := "android.os.RemoteCallbackList" }
      containExitPoint := true }) := by
  decide +kernel

/-- A report is sound: its chain runs along followed edges from the entry point
within the bound, and its last method completes the pair. -/
theorem report_sound (found : freshAnalysis p lev e = .ok (some vul, final)) :
    vul.entryPoint = some e ∧ vul.callChain ≠ [] ∧ vul.callChain.head? = some e ∧ vul.callChain.length ≤ lev ∧
    vul.callChain.Nodup ∧ vul.callChain.IsChain (FollowedEdge p) ∧
    (∃ mtd, ReachedWithin (FollowedEdge p) lev e mtd ∧ Produced p mtd vul) ∧
    (∃ mtd, ReachedWithin (FollowedEdge p) lev e mtd ∧ SetsExitPoint p mtd) ∧
    ∃ last, vul.callChain.getLast? = some last ∧ (Produced p last vul ∨ SetsExitPoint p last) := by
  obtain ⟨entered, before, call, after, split, reports⟩ := reported_at found
  have made (other : Call CallSite) (member : other ∈ before ++ [call]) : other ∈ madeCalls p lev e := by
    rw [split, List.append_cons]
    exact List.mem_append_left _ member
  have here : call ∈ before ++ [call] := List.mem_append_right _ (List.mem_singleton_self call)
  obtain ⟨mtd, checked, leads, _⟩ := reports.checked call here
  obtain ⟨between, spelled, short, linked, last⟩ := firstComers_chain rfl (made call here) leads
  have once : (nodes (callGraph p) call.full).Nodup := firstComers_nodup (made call here)
  obtain ⟨first, origin, inserted, produced⟩ := reports.last
  obtain ⟨_, exitMtd, exitMember, exit⟩ := reports.complete
  obtain ⟨exitCall, exitMade, exitLeads⟩ := mem_targets.mp exitMember
  have chain : vul.callChain = e :: between := reports.callChain.trans spelled
  rw [chain]
  refine ⟨entered, by simp, rfl, short, spelled ▸ once, edge_eq_followed ▸ linked, ⟨origin, ?_, produced⟩,
    ⟨exitMtd, made_reach (made exitCall exitMade) exitLeads, exit⟩, mtd, last, ?_⟩
  · obtain ⟨goes, _, earlier, later, listed, _⟩ := inserted
    exact made_reach (made first (by rw [listed]; exact List.mem_append_right _ List.mem_cons_self)) goes
  · by_cases inserts : InsertsBinder p mtd
    · have self : LastInsertion p (before ++ [call]) call mtd := ⟨leads, inserts, before, [], rfl, by simp⟩
      obtain ⟨_, rfl⟩ := lastInsertion_unique self inserted
      exact .inl produced
    · right
      by_contra silent
      apply reports.pending
      have earlier (holds : SootMethod → Prop) (away : ¬ holds mtd)
          (found : ∃ other ∈ targets (callGraph p) (before ++ [call]), holds other) :
          ∃ other ∈ targets (callGraph p) before, holds other := by
        rw [targets_append, targets_cons call leads] at found
        simpa [away] using found
      exact ⟨earlier _ inserts reports.complete.1, earlier _ silent reports.complete.2⟩

theorem report_sound_crossing : ∃ vul final,
    freshAnalysis crossing 4 (sampleMethod "entry") = .ok (some vul, final) ∧
    vul.entryPoint = some (sampleMethod "entry") ∧ vul.callChain ≠ [] ∧
    vul.callChain.head? = some (sampleMethod "entry") ∧ vul.callChain.length ≤ 4 ∧
    vul.callChain.Nodup ∧ vul.callChain.IsChain (FollowedEdge crossing) ∧
    (∃ mtd, ReachedWithin (FollowedEdge crossing) 4 (sampleMethod "entry") mtd ∧ Produced crossing mtd vul) ∧
    (∃ mtd, ReachedWithin (FollowedEdge crossing) 4 (sampleMethod "entry") mtd ∧ SetsExitPoint crossing mtd) ∧
    ∃ last, vul.callChain.getLast? = some last ∧ (Produced crossing last vul ∨ SetsExitPoint crossing last) :=
  ⟨_, _, crossing_reported, report_sound crossing_reported⟩

variable (p)

/-- The call that completes the pair is made from within the method of the last
insertion before it. -/
def StaysWithInsertion (lev : ℕ) (e : SootMethod) : Prop :=
  ∀ before call after, madeCalls p lev e = before ++ call :: after → (∀ made ∈ before ++ [call], Checked p made) →
    ¬ Complete p before → Complete p (before ++ [call]) →
    ∀ first mtd, LastInsertion p (before ++ [call]) first mtd → first.full <+: call.full

variable {p}

/-- The chain of a made call passes a method exactly when it continues the
chain of the call that leads there. -/
theorem mem_chain_iff_prefix (made : call ∈ madeCalls p lev e) (there : first ∈ madeCalls p lev e)
    (goes : (callGraph p).follow first.2 = .ok mtd) :
    mtd ∈ nodes (callGraph p) call.full ↔ first.full <+: call.full := by
  rw [mem_nodes]
  constructor
  · rintro ⟨site, member, leads⟩
    obtain ⟨before, after, split⟩ := List.append_of_mem member
    have passed : (before, site) ∈ madeCalls p lev e := firstComers_prefix after made split
    rw [firstComers_unique there passed goes leads]
    exact ⟨after, by rw [split, Call.full]; simp⟩
  · intro continues
    exact ⟨first.2, continues.subset (List.mem_append_right _ (List.mem_singleton_self first.2)), goes⟩

theorem insertion_passed_iff (split : madeCalls p lev e = before ++ call :: after)
    (inserted : LastInsertion p (before ++ [call]) first mtd) :
    mtd ∈ nodes (callGraph p) call.full ↔ first.full <+: call.full := by
  have made (other : Call CallSite) (member : other ∈ before ++ [call]) : other ∈ madeCalls p lev e := by
    rw [split, List.append_cons]
    exact List.mem_append_left _ member
  obtain ⟨goes, _, earlier, later, listed, _⟩ := inserted
  exact mem_chain_iff_prefix (made call (by simp)) (made first (by simp [listed])) goes

/-- The reported insertion is on the reported chain exactly when the search
never leaves the method of the last insertion before it completes the pair. -/
theorem insertion_on_chain_iff (lev : ℕ) (e : SootMethod) :
    (∀ vul final, freshAnalysis p lev e = .ok (some vul, final) →
      ∀ mtd, Produced p mtd vul → mtd ∈ vul.callChain) ↔ StaysWithInsertion p lev e := by
  constructor
  · intro attributed before call after split sound pending complete first mtd inserted
    obtain ⟨vul, final, found, reports⟩ := reported_of_split split sound pending complete
    obtain ⟨other, origin, last, produced⟩ := reports.last
    obtain ⟨rfl, rfl⟩ := lastInsertion_unique last inserted
    rw [← insertion_passed_iff split inserted, ← reports.callChain]
    exact attributed vul final found _ produced
  · intro stays vul final found mtd produced
    obtain ⟨_, before, call, after, split, reports⟩ := reported_at found
    obtain ⟨first, origin, inserted, own⟩ := reports.last
    have same : origin = mtd := own.1.symm.trans produced.1
    subst same
    rw [reports.callChain, insertion_passed_iff split inserted]
    exact stays before call after split reports.checked reports.pending reports.complete first _ inserted

/-- The insertion is remembered when its branch is left, and reported with the
chain of the other branch. -/
theorem leaving_misattributed : ∃ vul final,
    freshAnalysis leaving 2 (sampleMethod "entry") = .ok (some vul, final) ∧
    Produced leaving (sampleMethod "insert") vul ∧ sampleMethod "insert" ∉ vul.callChain := by
  have inserted : check leaving (sampleMethod "insert") = .ok (some
      { checked := sampleMethod "insert", binderCls := ⟨"Callback"⟩, listTag := "java.util.ArrayList" }, false) := by
    decide +kernel
  have reported : freshAnalysis leaving 2 (sampleMethod "entry") = .ok (some
        { checked := sampleMethod "insert", binderCls := ⟨"Callback"⟩, listTag := "java.util.ArrayList",
          entryPoint := some (sampleMethod "entry"), callChain := ["entry", "exit"].map sampleMethod },
      { visitSet := {sampleMethod "exit", sampleMethod "insert", sampleMethod "entry"}
        vul := some { checked := sampleMethod "insert", binderCls := ⟨"Callback"⟩, listTag := "java.util.ArrayList" }
        containExitPoint := true }) := by
    decide +kernel
  exact ⟨_, _, reported, ⟨rfl, _, _, inserted, rfl⟩, by decide⟩

/-- A quiet search has entered its methods down to the bound, and no insertion
among them meets an exit point. The layers say what was left of the bound. -/
theorem quiet_closed (bound : 1 ≤ lev) (quiet : freshAnalysis p lev e = .ok (none, final)) :
    e ∈ final.visitSet ∧
    (¬ ∃ m₁ ∈ final.visitSet, ∃ m₂ ∈ final.visitSet, InsertsBinder p m₁ ∧ SetsExitPoint p m₂) ∧
    ∃ left : SootMethod → ℕ, left e = lev ∧ (∀ m ∈ final.visitSet, 1 ≤ left m ∧ left m ≤ lev) ∧
      (∀ m ∈ final.visitSet, m ≠ e → ∃ q ∈ final.visitSet, FollowedEdge p q m ∧ left m = left q - 1) ∧
      ∀ m ∈ final.visitSet, 2 ≤ left m → ∀ callee, FollowedEdge p m callee → callee ∈ final.visitSet := by
  obtain ⟨memory, pending, _⟩ := quiet_remembers (quiet_iff.mp quiet)
  obtain ⟨lev, rfl⟩ := Nat.exists_eq_add_of_le' bound
  obtain ⟨left, root, range, parent, closed⟩ := firstComers_layers lev
    (rfl : (callGraph p).follow (.ok e, 0) = .ok e)
  rw [memory.visitSet]
  simp only [← edge_iff_followed]
  refine ⟨mem_targets.mpr ⟨_, firstComers_root rfl, rfl⟩, ?_, left, root, range, ?_, closed⟩
  · rintro ⟨m₁, inside, m₂, member, inserts, exit⟩
    exact pending ⟨⟨m₁, inside, inserts⟩, m₂, member, exit⟩
  · intro m member other
    obtain ⟨q, before, edge, above⟩ := parent m member other
    exact ⟨q, before, edge, by omega⟩

theorem quiet_closed_crossing : ∃ final : SearchState,
    freshAnalysis crossing 3 (sampleMethod "entry") = .ok (none, final) ∧ sampleMethod "entry" ∈ final.visitSet ∧
    (¬ ∃ m₁ ∈ final.visitSet, ∃ m₂ ∈ final.visitSet, InsertsBinder crossing m₁ ∧ SetsExitPoint crossing m₂) ∧
    ∃ left : SootMethod → ℕ, left (sampleMethod "entry") = 3 ∧
      (∀ m ∈ final.visitSet, 1 ≤ left m ∧ left m ≤ 3) ∧
      (∀ m ∈ final.visitSet, m ≠ sampleMethod "entry" →
        ∃ q ∈ final.visitSet, FollowedEdge crossing q m ∧ left m = left q - 1) ∧
      ∀ m ∈ final.visitSet, 2 ≤ left m → ∀ callee, FollowedEdge crossing m callee → callee ∈ final.visitSet :=
  ⟨_, crossing_quiet, quiet_closed (by decide) crossing_quiet⟩

end JgreAnalysis.CallGraphVerdict
