import JgreAnalysis.BinderClasses
import JgreAnalysis.ExhaustiveSearch

/-! The search that ties a helper method to a vulnerable service method. It
follows calls down to a bounded level, with no memory of where it has been,
until it meets a binder call with the sub-signature of an exit point. -/
namespace JgreAnalysis.AnalysisHelperApi
open SootModel BinderClasses
open BoundedReach ExhaustiveSearch LoopLaws

/-- A search over its field `called`. -/
abbrev Searching := StateT (Option SootMethod) (Except ResolutionFailed)

variable (p : Program) (exitPoints : List SootMethod)

def matchingExitPoint (sm : SootMethodRef) : Option SootMethod :=
  (p.hashOrder.arrange exitPoints).find? fun mtd => mtd.subSignature == sm.subSignature

def findCallInCurrentMethod (sm : SootMethodRef) : Searching Unit :=
  match matchingExitPoint p exitPoints sm with
  | some mtd => set (some mtd)
  | none => pure ()

/-- The jump out of the loop is taken when `called` is set, so the loop hands
`called` on as the answer that ends it. -/
def callStatement (call : SootMethod → Searching Unit) (u : Stmt) : Searching (Option SootMethod) :=
  match u.invokeExpr? with
  | some inv =>
    if inv.isInterface = false then do
      call (← p.resolve inv.methodRef)
      get
    else if isIInterface p inv.methodRef.declaringClass then do
      findCallInCurrentMethod p exitPoints inv.methodRef
      get
    else pure none
  | none => pure none

def callGraphAnalysis : ℕ → SootMethod → Searching Unit
  | 0, _ => pure ()
  | lev + 1, mtd => do
    let _ ← (p.units mtd).findSomeM? (callStatement p exitPoints (callGraphAnalysis lev))
    pure ()

/-- What `called` holds after a search of the given level from the entry. -/
def searchCalled (lev : ℕ) (entryMtd : SootMethod) : Except ResolutionFailed (Option SootMethod) := do
  let reply ← (callGraphAnalysis p exitPoints lev entryMtd).run none
  pure reply.2

def findVulIPCCall (entryMtd : SootMethod) : Except ResolutionFailed (Option SootMethod) :=
  searchCalled p exitPoints 3 entryMtd

/-! ## The search as an exhaustive one -/

/-- What one statement offers the search: a call to go down into, labelled with
the calling method, or an exit point that it calls. -/
def movesOf (mtd : SootMethod) (u : Stmt) : List (Move SootMethod SootMethod ResolutionFailed) :=
  match u.invokeExpr? with
  | some inv =>
    if inv.isInterface = false then [.descend mtd (p.resolve inv.methodRef)]
    else if isIInterface p inv.methodRef.declaringClass then
      (matchingExitPoint p exitPoints inv.methodRef).toList.map .answer
    else []
  | none => []

def moves (mtd : SootMethod) : List (Move SootMethod SootMethod ResolutionFailed) :=
  (p.units mtd).flatMap (movesOf p exitPoints mtd)

/-- The field `called` and the answer of a loop after the moves of its body. -/
def settled : Except ResolutionFailed (Option (Found SootMethod)) →
    Except ResolutionFailed (Option SootMethod × Option SootMethod)
  | .error problem => .error problem
  | .ok found => .ok (found.map Prod.snd, found.map Prod.snd)

variable {p exitPoints}

theorem callStatement_settled (call : SootMethod → Searching Unit)
    (search : SootMethod → Except ResolutionFailed (Option (Found SootMethod)))
    (agrees : ∀ mtd, call mtd none = (settled (search mtd)).map fun reply => ((), reply.2))
    (mtd : SootMethod) (u : Stmt) :
    callStatement p exitPoints call u none = settled ((movesOf p exitPoints mtd u).findSomeM? (follow search)) := by
  unfold callStatement movesOf
  cases u.invokeExpr? with
  | none => rfl
  | some inv =>
    simp only
    split
    · cases resolved : p.resolve inv.methodRef with
      | error problem => rfl
      | ok callee =>
        have ran := agrees callee
        cases below : search callee with
        | error problem =>
          rw [below] at ran
          have entered : (do call callee; get : Searching (Option SootMethod)) none = .error problem := by
            simp only [bind, StateT.bind, Except.bind, ran]
            rfl
          simp only [plain_cons, follow, bind, Except.bind, below]
          exact entered
        | ok found =>
          rw [below] at ran
          have entered : (do call callee; get : Searching (Option SootMethod)) none =
              .ok (found.map Prod.snd, found.map Prod.snd) := by
            simp only [bind, StateT.bind, Except.bind, ran]
            rfl
          rw [plain_cons, follow_ok search below]
          cases found <;> exact entered
    · split
      · unfold findCallInCurrentMethod
        cases matchingExitPoint p exitPoints inv.methodRef <;> rfl
      · rfl

/-- The loop over a body does what the exhaustive search does with its moves. -/
theorem loop_settled (call : SootMethod → Searching Unit)
    (search : SootMethod → Except ResolutionFailed (Option (Found SootMethod)))
    (agrees : ∀ mtd, call mtd none = (settled (search mtd)).map fun reply => ((), reply.2))
    (mtd : SootMethod) (units : List Stmt) :
    units.findSomeM? (callStatement p exitPoints call) none =
      settled ((units.flatMap (movesOf p exitPoints mtd)).findSomeM? (follow search)) := by
  induction units with
  | nil => rfl
  | cons u units ih =>
    rw [loop_cons, callStatement_settled call search agrees mtd, List.flatMap_cons, plain_append]
    cases (movesOf p exitPoints mtd u).findSomeM? (follow search) with
    | error problem => rfl
    | ok found =>
      cases found with
      | none => exact ih
      | some found => rfl

theorem callGraphAnalysis_eq_dive (lev : ℕ) (mtd : SootMethod) :
    callGraphAnalysis p exitPoints lev mtd none =
      (settled (dive (moves p exitPoints) (.ok ()) lev mtd)).map fun reply => ((), reply.2) := by
  induction lev generalizing mtd with
  | zero => rfl
  | succ lev ih =>
    have body : (p.units mtd).findSomeM? (callStatement p exitPoints (callGraphAnalysis p exitPoints lev)) none =
        settled ((moves p exitPoints mtd).findSomeM? (follow (dive (moves p exitPoints) (.ok ()) lev))) :=
      loop_settled _ _ ih mtd (p.units mtd)
    simp only [callGraphAnalysis, bind, StateT.bind, Except.bind, body, dive]
    cases settled _ <;> rfl

/-- The field `called` ends up with the answer of the exhaustive search. -/
theorem searchCalled_eq_dive (lev : ℕ) (entryMtd : SootMethod) : searchCalled p exitPoints lev entryMtd =
    (dive (moves p exitPoints) (.ok ()) lev entryMtd).map (Option.map Prod.snd) := by
  simp only [searchCalled, StateT.run, callGraphAnalysis_eq_dive]
  cases dive (moves p exitPoints) (.ok ()) lev entryMtd <;> rfl

theorem searchCalled_found_iff (lev : ℕ) (e found : SootMethod) : searchCalled p exitPoints lev e = .ok (some found) ↔
    ∃ way, dive (moves p exitPoints) (.ok ()) lev e = .ok (some (way, found)) := by
  rw [searchCalled_eq_dive]
  cases dive (moves p exitPoints) (.ok ()) lev e with
  | error problem => simp [Except.map]
  | ok reply => cases reply <;> simp [Except.map, Prod.ext_iff]

/-! ## What the search finds -/

variable (p exitPoints)

/-- One method calls another by a non-interface invoke. -/
def CallEdge (mtd callee : SootMethod) : Prop :=
  ∃ u ∈ p.units mtd, ∃ inv, u.invokeExpr? = some inv ∧ inv.isInterface = false ∧ p.resolve inv.methodRef = .ok callee

/-- The method invokes, on an interface that directly extends `IInterface`, the
sub-signature of this exit point. -/
def CallsExitPoint (mtd found : SootMethod) : Prop :=
  found ∈ exitPoints ∧ ∃ u ∈ p.units mtd, ∃ inv, u.invokeExpr? = some inv ∧ inv.isInterface = true ∧
    (∃ inf ∈ p.interfaces inv.methodRef.declaringClass, inf.name = "android.os.IInterface") ∧
    found.subSignature = inv.methodRef.subSignature

variable {p exitPoints}

theorem isIInterface_iff (sc : SootClass) :
    isIInterface p sc = true ↔ ∃ inf ∈ p.interfaces sc, inf.name = "android.os.IInterface" := by
  simp [isIInterface, namesInterface]

theorem descend_mem_movesOf : .descend label target ∈ movesOf p exitPoints mtd u ↔
    label = mtd ∧ ∃ inv, u.invokeExpr? = some inv ∧ inv.isInterface = false ∧ p.resolve inv.methodRef = target := by
  unfold movesOf
  cases u.invokeExpr? with
  | none => simp
  | some inv =>
    simp only
    split
    · rename_i other
      simp only [List.mem_singleton, Move.descend.injEq, Option.some.injEq, exists_eq_left', other, true_and]
      exact and_congr Iff.rfl eq_comm
    · split <;> simp_all

theorem answer_mem_movesOf : .answer label ∈ movesOf p exitPoints mtd u ↔
    ∃ inv, u.invokeExpr? = some inv ∧ inv.isInterface = true ∧ isIInterface p inv.methodRef.declaringClass = true ∧
      matchingExitPoint p exitPoints inv.methodRef = some label := by
  unfold movesOf
  cases u.invokeExpr? with
  | none => simp
  | some inv =>
    simp only
    split
    · simp_all
    · split <;> simp_all

theorem descends_eq : Descends (moves p exitPoints) = CallEdge p := by
  funext mtd callee
  simp only [Descends, moves, List.mem_flatMap, descend_mem_movesOf, CallEdge]
  refine propext ⟨?_, ?_⟩
  · rintro ⟨label, u, member, _, calls⟩
    exact ⟨u, member, calls⟩
  · rintro ⟨u, member, calls⟩
    exact ⟨mtd, u, member, rfl, calls⟩

theorem answer_matches (answers : .answer label ∈ moves p exitPoints mtd) : CallsExitPoint p exitPoints mtd label := by
  obtain ⟨u, member, answers⟩ := List.mem_flatMap.mp answers
  obtain ⟨inv, invoked, interface, extends_, matching⟩ := answer_mem_movesOf.mp answers
  have listed := p.hashOrder.mem_arrange.mp (List.mem_of_find?_eq_some matching)
  have same := List.find?_some matching
  exact ⟨listed, u, member, inv, invoked, interface, (isIInterface_iff _).mp extends_, beq_iff_eq.mp same⟩

theorem answers_of_call (calls : CallsExitPoint p exitPoints mtd found) :
    ∃ label, .answer label ∈ moves p exitPoints mtd := by
  obtain ⟨listed, u, member, inv, invoked, interface, extends_, same⟩ := calls
  cases matching : matchingExitPoint p exitPoints inv.methodRef with
  | some label =>
    refine ⟨label, List.mem_flatMap.mpr ⟨u, member, ?_⟩⟩
    exact answer_mem_movesOf.mpr ⟨inv, invoked, interface, (isIInterface_iff _).mpr extends_, matching⟩
  | none =>
    have differs := List.find?_eq_none.mp matching found (p.hashOrder.mem_arrange.mpr listed)
    exact absurd (beq_iff_eq.mpr same) differs

theorem targets_known (resolve : MethodsResolve p) (exitPoints : List SootMethod) (mtd label : SootMethod)
    (target : Except ResolutionFailed SootMethod) (member : .descend label target ∈ moves p exitPoints mtd) :
    ∃ callee, target = .ok callee := by
  obtain ⟨u, inside, calls⟩ := List.mem_flatMap.mp member
  obtain ⟨_, inv, invoked, other, rfl⟩ := descend_mem_movesOf.mp calls
  exact resolve mtd u inside inv invoked other

/-- Where methods resolve, the helper search ends without an exception. -/
theorem searchCalled_total (resolve : MethodsResolve p) (exitPoints : List SootMethod) (lev : ℕ) (e : SootMethod) :
    ∃ called, searchCalled p exitPoints lev e = .ok called := by
  obtain ⟨found, ran⟩ := dive_total (targets_known resolve exitPoints) lev e
  rw [searchCalled_eq_dive, ran]
  exact ⟨_, rfl⟩

/-- What the helper search finds is an exit point that a method within reach
calls. -/
theorem searchCalled_sound (ran : searchCalled p exitPoints lev e = .ok (some found)) :
    found ∈ exitPoints ∧ ∃ mtd, ReachedWithin (CallEdge p) lev e mtd ∧ CallsExitPoint p exitPoints mtd found := by
  obtain ⟨way, ran⟩ := (searchCalled_found_iff lev e found).mp ran
  obtain ⟨trail, fits⟩ := dive_sound ran
  obtain ⟨last, steps, answers⟩ := trail.steps
  have calls := answer_matches answers
  exact ⟨calls.1, last, ⟨_, fits, descends_eq ▸ steps⟩, calls⟩

/-- The helper search finds something exactly when a method within reach calls
an exit point, and what it finds is an exit point so called. -/
theorem searchCalled_exact (resolve : MethodsResolve p) (lev : ℕ) (e : SootMethod) :
    ((∃ found, searchCalled p exitPoints lev e = .ok (some found)) ↔
      ∃ mtd, ReachedWithin (CallEdge p) lev e mtd ∧ ∃ found, CallsExitPoint p exitPoints mtd found) ∧
    ∀ found, searchCalled p exitPoints lev e = .ok (some found) →
      found ∈ exitPoints ∧ ∃ mtd, ReachedWithin (CallEdge p) lev e mtd ∧ CallsExitPoint p exitPoints mtd found := by
  refine ⟨?_, fun found ran => searchCalled_sound ran⟩
  have finds := dive_found_iff (targets_known resolve exitPoints) lev e
  rw [descends_eq] at finds
  constructor
  · rintro ⟨found, ran⟩
    obtain ⟨_, mtd, reached, calls⟩ := searchCalled_sound ran
    exact ⟨mtd, reached, found, calls⟩
  · rintro ⟨last, reached, found, calls⟩
    obtain ⟨⟨way, label⟩, ran⟩ := finds.mpr ⟨last, reached, answers_of_call calls⟩
    exact ⟨label, (searchCalled_found_iff lev e label).mpr ⟨way, ran⟩⟩

/-- A helper that calls the service through another method of its class. -/
def managing : Program := sampleProgram fun name =>
  match name with
  | "listen" => [callTo "connect"]
  | "connect" => [invocation (.interface ⟨"service", 0⟩) "IService" "register" []]
  | _ => []

theorem searchCalled_exact_managing : MethodsResolve managing ∧
    ((∃ found, searchCalled managing [sampleMethod "register"] 3 (sampleMethod "listen") = .ok (some found)) ↔
      ∃ mtd, ReachedWithin (CallEdge managing) 3 (sampleMethod "listen") mtd ∧
        ∃ found, CallsExitPoint managing [sampleMethod "register"] mtd found) ∧
    ∀ found, searchCalled managing [sampleMethod "register"] 3 (sampleMethod "listen") = .ok (some found) →
      found ∈ [sampleMethod "register"] ∧ ∃ mtd, ReachedWithin (CallEdge managing) 3 (sampleMethod "listen") mtd ∧
        CallsExitPoint managing [sampleMethod "register"] mtd found :=
  ⟨sampleProgram_resolves _, searchCalled_exact (sampleProgram_resolves _) 3 (sampleMethod "listen")⟩

example : findVulIPCCall managing [sampleMethod "register"] (sampleMethod "listen") =
    .ok (some (sampleMethod "register")) := by
  decide +kernel

end JgreAnalysis.AnalysisHelperApi
