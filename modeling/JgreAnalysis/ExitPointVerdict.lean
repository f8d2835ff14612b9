import JgreAnalysis.ExitPointChecker
import JgreAnalysis.LocalFacts

/-! What the check of one method says about its body. A statement is judged by
the invoke it contains, whatever came before it, and the loop stops behind the
first insertion: the finding is about the whole body, the exit flag only about
the statements up to there. -/
namespace JgreAnalysis.ExitPointVerdict
open SootModel PointToAnalysis LocalFacts ExitPointChecker LoopLaws

variable (p : Program)

/-- The invoke adds an argument of an exit class to one of the listed
collections, and its receiver does not count as local. -/
def AddsBinder (mtd : SootMethod) (inv : InvokeExpr) : Prop :=
  (∃ cur, p.resolve inv.methodRef = .ok cur ∧ cur.declaringClass.name ∈ listClassTypes ∧ cur.name ∈ listAddMethods) ∧
  (∀ receiver, getInvokeLocalFiled inv = some receiver → isLocalValue (run p mtd) receiver = false) ∧
  ∃ l sootClass, .loc l ∈ inv.args ∧ getLocalDefine (run p mtd) l = some sootClass ∧ isExitClass p sootClass = true

def RegistersCallback (inv : InvokeExpr) : Prop :=
  ∃ cur, p.resolve inv.methodRef = .ok cur ∧
    cur.declaringClass.name = "android.os.RemoteCallbackList" ∧ cur.name = "register"

/-- The check sees an insertion in the statement. -/
def Detects (mtd : SootMethod) (u : Stmt) : Prop :=
  ∃ inv, u.invokeExpr? = some inv ∧ inv.isInterface = false ∧ (RegistersCallback p inv ∨ AddsBinder p mtd inv)

/-- The statement takes a binder reference out of the process. -/
def HasExitPoint (u : Stmt) : Prop :=
  ∃ inv, u.invokeExpr? = some inv ∧ (inv.methodRef.name = "asBinder" ∨ inv.methodRef.name = "linkToDeath" ∨
    (inv.isInterface = false ∧ RegistersCallback p inv))

variable {p}

/-! ## One statement -/

theorem checkContainExitPoint_eq (inv : InvokeExpr) (flag : Bool) :
    checkContainExitPoint inv flag = .ok ((), flag || decide (inv.methodRef.name ∈ exitPointMthods)) := by
  unfold checkContainExitPoint
  split
  · rename_i named
    simp only [named, decide_true, Bool.or_true]
    rfl
  · rename_i other
    simp only [other, decide_false, Bool.or_false]
    rfl

theorem binderArgument_isSome (facts : PointTo) (args : List Immediate) : (binderArgument p facts args).isSome = true ↔
    ∃ l sootClass, .loc l ∈ args ∧ getLocalDefine facts l = some sootClass ∧ isExitClass p sootClass = true := by
  rw [binderArgument, List.findSome?_isSome_iff]
  constructor
  · rintro ⟨arg, member, found⟩
    cases arg with
    | constant text => cases found
    | loc l =>
      obtain ⟨sootClass, known⟩ := Option.isSome_iff_exists.mp found
      obtain ⟨defined, exits⟩ := Option.filter_eq_some_iff.mp known
      exact ⟨l, sootClass, member, defined, exits⟩
  · rintro ⟨l, sootClass, member, defined, exits⟩
    exact ⟨.loc l, member, by simp [defined, exits, Option.filter]⟩

/-- What is found behind a resolved call, and the flag it leaves. -/
theorem detectResolved_spec (resolved : p.resolve inv.methodRef = .ok cur)
    (ran : detectResolved p mtd (run p mtd) inv cur flag = .ok (found, next)) :
    (found.isSome = true ↔ RegistersCallback p inv ∨ AddsBinder p mtd inv) ∧
    (next = true ↔ flag = true ∨ RegistersCallback p inv) := by
  have registers : RegistersCallback p inv ↔ cur.declaringClass.name = kRemoteCallback ∧ cur.name = kRemoteListRegisterName := by
    simp [RegistersCallback, resolved, kRemoteCallback, kRemoteListRegisterName]
  have listed : (∃ cur, p.resolve inv.methodRef = .ok cur ∧ cur.declaringClass.name ∈ listClassTypes ∧
      cur.name ∈ listAddMethods) ↔ cur.declaringClass.name ∈ listClassTypes ∧ cur.name ∈ listAddMethods := by
    simp [resolved]
  rw [registers, AddsBinder, listed]
  unfold detectResolved at ran
  split at ran
  · rename_i registration
    cases ran
    simp [registration]
  · rename_i other
    split at ran
    · rename_i adds
      split at ran
      · rename_i kept
        cases ran
        obtain ⟨receiver, held, counted⟩ := (Option.any_eq_true _ _).mp kept
        simp only [other, false_or, or_false, Option.isSome_none, Bool.false_eq_true, false_iff, and_true]
        rintro ⟨_, outside, _⟩
        simp [outside receiver held] at counted
      · rename_i outside
        cases ran
        have elsewhere (receiver : Local) (held : getInvokeLocalFiled inv = some receiver) :
            isLocalValue (run p mtd) receiver = false := by
          simpa [held] using outside
        rw [Option.isSome_map, binderArgument_isSome]
        simp only [other, false_or, or_false, adds, and_self, true_and, and_true]
        exact ⟨fun argument => ⟨elsewhere, argument⟩, And.right⟩
    · rename_i unlisted
      cases ran
      simp [other, unlisted]

/-- A statement that is decided reports an insertion when it has one, and raises
the flag when it has an exit point. -/
theorem checkStatement_spec (ran : checkStatement p mtd (run p mtd) u flag = .ok (found, next)) :
    (found.isSome = true ↔ Detects p mtd u) ∧ (next = true ↔ flag = true ∨ HasExitPoint p u) := by
  unfold checkStatement at ran
  cases invoked : u.invokeExpr? with
  | none =>
    rw [invoked] at ran
    cases ran
    simp [Detects, HasExitPoint, invoked]
  | some inv =>
    simp only [invoked, bind, StateT.bind, checkContainExitPoint_eq, Except.bind] at ran
    have named : inv.methodRef.name ∈ exitPointMthods ↔
        inv.methodRef.name = "asBinder" ∨ inv.methodRef.name = "linkToDeath" := by
      simp [exitPointMthods]
    simp only [Detects, HasExitPoint, invoked, Option.some.injEq, exists_eq_left', ← or_assoc, ← named]
    cases interface : inv.isInterface with
    | true =>
      rw [detectAddToList_interface _ interface] at ran
      cases ran
      simp
    | false =>
      cases resolved : p.resolve inv.methodRef with
      | error problem =>
        rw [detectAddToList_error _ interface resolved] at ran
        cases ran
      | ok cur =>
        rw [detectAddToList_resolved _ interface resolved] at ran
        obtain ⟨finding, flagged⟩ := detectResolved_spec resolved ran
        simp [finding, flagged, or_assoc]

/-! ## The loop over a body -/

/-- A loop that finds nothing has seen no insertion and every exit point. -/
theorem quiet_spec (units : List Stmt)
    (ran : units.findSomeM? (checkStatement p mtd (run p mtd)) flag = .ok (none, next)) :
    (∀ u ∈ units, ¬ Detects p mtd u) ∧ (next = true ↔ flag = true ∨ ∃ u ∈ units, HasExitPoint p u) := by
  refine loop_invariant (fun seen flagged => (∀ u ∈ seen, ¬ Detects p mtd u) ∧
    (flagged = true ↔ flag = true ∨ ∃ u ∈ seen, HasExitPoint p u)) ?_ units [] (by simp) ran
  rintro before u flagged after ⟨silent, marked⟩ ran
  obtain ⟨finding, raised⟩ := checkStatement_spec ran
  have nothing : ¬ Detects p mtd u := fun detects => by simpa using finding.mpr detects
  refine ⟨List.forall_mem_append.mpr ⟨silent, by simpa using nothing⟩, ?_⟩
  rw [raised, marked, or_assoc]
  refine or_congr Iff.rfl ?_
  simp [or_and_right, exists_or]

/-- A check ends quietly, having seen all of the body, or at the first insertion,
having seen the body up to there. -/
theorem check_spec (ran : check p mtd = .ok (found, flag)) :
    (found = none ∧ (∀ u ∈ p.units mtd, ¬ Detects p mtd u) ∧ (flag = true ↔ ∃ u ∈ p.units mtd, HasExitPoint p u)) ∨
    ∃ before u after, p.units mtd = before ++ u :: after ∧ found.isSome = true ∧ Detects p mtd u ∧
      (∀ earlier ∈ before, ¬ Detects p mtd earlier) ∧
      (flag = true ↔ ∃ seen ∈ before ++ [u], HasExitPoint p seen) := by
  cases found with
  | none =>
    obtain ⟨silent, flagged⟩ := quiet_spec (p.units mtd) ran
    exact .inl ⟨rfl, silent, by simpa using flagged⟩
  | some vul =>
    obtain ⟨before, u, after, middle, split, quiet, stops⟩ := (loop_found_iff _).mp ran
    obtain ⟨silent, marked⟩ := quiet_spec before quiet
    obtain ⟨finding, raised⟩ := checkStatement_spec stops
    refine .inr ⟨before, u, after, split, rfl, finding.mp rfl, silent, ?_⟩
    rw [raised, marked]
    simp [or_and_right, exists_or]

theorem check_found_iff (ran : check p mtd = .ok (found, flag)) :
    found.isSome = true ↔ ∃ u ∈ p.units mtd, Detects p mtd u := by
  rcases check_spec ran with ⟨rfl, silent, _⟩ | ⟨before, u, after, split, some, detects, _⟩
  · simpa using silent
  · simp only [some, true_iff]
    exact ⟨u, by simp [split], detects⟩

/-! ## Insertions -/

/-- An insertion of a binder object is always found exactly when the body also
has one that is no interface invoke, or a callback registration. -/
theorem insertion_found_iff (resolve : MethodsResolve p) (mtd : SootMethod) :
    (∀ u ∈ p.units mtd, ∀ inv, u.invokeExpr? = some inv → AddsBinder p mtd inv →
      ∃ vul flag, check p mtd = .ok (some vul, flag)) ↔
    ((∃ u ∈ p.units mtd, ∃ inv, u.invokeExpr? = some inv ∧ AddsBinder p mtd inv) →
      ∃ u ∈ p.units mtd, ∃ inv, u.invokeExpr? = some inv ∧ inv.isInterface = false ∧
        (RegistersCallback p inv ∨ AddsBinder p mtd inv)) := by
  obtain ⟨⟨found, flag⟩, ran⟩ := check_total resolve mtd
  have finds : (∃ vul flag, check p mtd = .ok (some vul, flag)) ↔ ∃ u ∈ p.units mtd, Detects p mtd u := by
    rw [← check_found_iff ran, Option.isSome_iff_exists]
    simp [ran]
  rw [finds]
  constructor
  · rintro always ⟨u, inside, inv, invoked, adds⟩
    exact always u inside inv invoked adds
  · intro other u inside inv invoked adds
    exact other ⟨u, inside, inv, invoked, adds⟩

/-- A body whose only insertion goes into a field of an interface type. -/
def listInserting : Program := sampleProgram fun _ =>
  [.assign (.immediate (.loc ⟨"callback", 0⟩)) (.newExpr ⟨"Callback"⟩),
    .assign (.immediate (.loc ⟨"list", 1⟩)) (.instanceFieldRef ⟨"this", 2⟩ ⟨"mCallbacks", .refType ⟨"java.util.List"⟩⟩),
    invocation (.interface ⟨"list", 1⟩) "java.util.List" "add" [.loc ⟨"callback", 0⟩]]

theorem insertion_found_iff_sample : MethodsResolve listInserting ∧
    ((∀ u ∈ listInserting.units (sampleMethod "entry"), ∀ inv, u.invokeExpr? = some inv →
        AddsBinder listInserting (sampleMethod "entry") inv →
        ∃ vul flag, check listInserting (sampleMethod "entry") = .ok (some vul, flag)) ↔
      ((∃ u ∈ listInserting.units (sampleMethod "entry"), ∃ inv, u.invokeExpr? = some inv ∧
          AddsBinder listInserting (sampleMethod "entry") inv) →
        ∃ u ∈ listInserting.units (sampleMethod "entry"), ∃ inv, u.invokeExpr? = some inv ∧ inv.isInterface = false ∧
          (RegistersCallback listInserting inv ∨ AddsBinder listInserting (sampleMethod "entry") inv))) :=
  ⟨sampleProgram_resolves _, insertion_found_iff (sampleProgram_resolves _) (sampleMethod "entry")⟩

/-- The call is an interface invoke, which is passed over before the names of
the interfaces are looked up. -/
theorem list_insertion_missed : (∃ u ∈ listInserting.units (sampleMethod "entry"), ∃ inv, u.invokeExpr? = some inv ∧
      AddsBinder listInserting (sampleMethod "entry") inv) ∧
    check listInserting (sampleMethod "entry") = .ok (none, false) := by
  refine ⟨⟨_, .tail _ (.tail _ (.head _)), _, rfl, ⟨_, rfl, by decide, by decide⟩, ?_, ⟨"callback", 0⟩, ⟨"Callback"⟩,
    by decide, ?_, by decide⟩, by decide +kernel⟩
  · intro receiver held
    cases held
    rw [isLocalValue, getLocalPointTo_eq]
    decide
  · rw [getLocalDefine_eq]
    decide

/-! ## The exit flag -/

/-- The flag is about the whole body exactly when an exit point behind the first
insertion is not the first exit point of the body. -/
theorem flag_whole_body_iff (ran : check p mtd = .ok (found, flag)) :
    (flag = true ↔ ∃ u ∈ p.units mtd, HasExitPoint p u) ↔
    ∀ before u after, p.units mtd = before ++ u :: after → Detects p mtd u →
      (∀ earlier ∈ before, ¬ Detects p mtd earlier) → (∃ later ∈ after, HasExitPoint p later) →
      ∃ seen ∈ before ++ [u], HasExitPoint p seen := by
  rcases check_spec ran with ⟨_, silent, flagged⟩ | ⟨before, u, after, split, _, detects, silent, flagged⟩
  · refine iff_of_true flagged fun before u after split detects => ?_
    exact absurd detects (silent u (by simp [split]))
  · have whole : (∃ u ∈ p.units mtd, HasExitPoint p u) ↔
        (∃ seen ∈ before ++ [u], HasExitPoint p seen) ∨ ∃ later ∈ after, HasExitPoint p later := by
      simp [split, or_and_right, exists_or, or_assoc]
    rw [flagged, whole]
    constructor
    · intro same first stop rest spelled stops quiet later
      obtain ⟨rfl, rfl, rfl⟩ := first_split_unique (split.symm.trans spelled) detects stops silent quiet
      exact same.mpr (.inr later)
    · intro early
      refine ⟨.inl, ?_⟩
      rintro (seen | later)
      · exact seen
      · exact early before u after split detects silent later

/-- A body that adds a callback to a list and only then links to its death. -/
def linkingLate : Program := sampleProgram fun _ =>
  [.assign (.immediate (.loc ⟨"callback", 0⟩)) (.newExpr ⟨"Callback"⟩),
    invocation (.virtual ⟨"list", 1⟩) "java.util.ArrayList" "add" [.loc ⟨"callback", 0⟩],
    invocation (.interface ⟨"callback", 0⟩) "android.os.IBinder" "linkToDeath" []]

theorem linkingLate_checked : check linkingLate (sampleMethod "entry") = .ok (some
    { checked := sampleMethod "entry", binderCls := ⟨"Callback"⟩, listTag := "java.util.ArrayList" }, false) := by
  decide +kernel

theorem flag_whole_body_iff_late : check linkingLate (sampleMethod "entry") = .ok (some
      { checked := sampleMethod "entry", binderCls := ⟨"Callback"⟩, listTag := "java.util.ArrayList" }, false) ∧
    ((false = true ↔ ∃ u ∈ linkingLate.units (sampleMethod "entry"), HasExitPoint linkingLate u) ↔
    ∀ before u after, linkingLate.units (sampleMethod "entry") = before ++ u :: after →
      Detects linkingLate (sampleMethod "entry") u →
      (∀ earlier ∈ before, ¬ Detects linkingLate (sampleMethod "entry") earlier) →
      (∃ later ∈ after, HasExitPoint linkingLate later) → ∃ seen ∈ before ++ [u], HasExitPoint linkingLate seen) :=
  ⟨linkingLate_checked, flag_whole_body_iff linkingLate_checked⟩

/-- The loop has left before it comes to the exit point. -/
theorem late_link_not_flagged : ∃ found, check linkingLate (sampleMethod "entry") = .ok (found, false) ∧
    ∃ u ∈ linkingLate.units (sampleMethod "entry"), HasExitPoint linkingLate u :=
  ⟨_, linkingLate_checked, _, .tail _ (.tail _ (.head _)), _, rfl, .inr (.inl rfl)⟩

end JgreAnalysis.ExitPointVerdict
