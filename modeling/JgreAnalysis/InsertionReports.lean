import JgreAnalysis.LastBindings
import JgreAnalysis.StatementOrder

/-! The check of one method, told from its body alone. The class of a local is
the one that the last statement to give it a class gives it, and the check
describes the first statement that inserts an object of an exit class, as long as
every call in front of it resolves. -/
namespace JgreAnalysis.InsertionReports
open SootModel BinderClasses PointToAnalysis LocalFacts ExitPointChecker ExitPointVerdict StatementOrder
open LoopLaws LastBindings

/-! ## The class of a local -/

def classOfType : SootType → Option SootClass
  | .refType sootClass => some sootClass
  | .other _ => none

/-- The class that the right side of an assignment gives its local. -/
def classOfValue : Value → Option SootClass
  | .instanceFieldRef _ field => classOfType field.type
  | .newExpr sootClass => some sootClass
  | .invoke inv => if inv.isInterface then resolveInterfaceInvoke inv else none
  | _ => none

def assignedClass : Stmt → Option (Local × SootClass)
  | .assign (.immediate (.loc left)) rightOp => (classOfValue rightOp).map (Prod.mk left)
  | _ => none

variable (p : Program)

/-- A parameter gives its local a class when that is a binder class. -/
def parameterClass : Stmt → Option (Local × SootClass)
  | .identity (.immediate (.loc left)) (.parameterRef _ (.refType sootClass)) =>
    if isBinderClass p sootClass then some (left, sootClass) else none
  | _ => none

/-- The last assignment that gives the local a class gives it this one, or else
the last such parameter does. -/
def Holds (mtd : SootMethod) (l : Local) (cls : SootClass) : Prop :=
  IsLast ((p.units mtd).filterMap assignedClass) l cls ∨
    (IsLast ((p.units mtd).filterMap (parameterClass p)) l cls ∧
      ∀ pair ∈ (p.units mtd).filterMap assignedClass, pair.1 ≠ l)

variable {p}

theorem recordStatement_defines (facts : PointTo) (u : Stmt) : (recordStatement facts u).valueDefines =
    assignAll facts.valueDefines (assignedClass u).toList := by
  cases u with
  | assign leftOp rightOp =>
    cases leftOp with
    | immediate value =>
      cases value with
      | loc left =>
        cases rightOp with
        | immediate value => cases value <;> rfl
        | instanceFieldRef base field =>
          cases type : field.type <;> simp [recordStatement, findValueDefines, assignedClass, classOfValue, classOfType,
            type, assignAll, assign]
        | invoke inv =>
          cases interface : inv.isInterface with
          | true => cases resolved : resolveInterfaceInvoke inv <;>
              simp [recordStatement, findValueDefines, assignedClass, classOfValue, interface, resolved, assignAll, assign]
          | false => simp [recordStatement, findValueDefines, assignedClass, classOfValue, interface, assignAll]
        | _ => rfl
      | constant text => cases rightOp <;> rfl
    | _ => cases rightOp <;> rfl
  | _ => rfl

theorem recordParameter_defines (p : Program) (valueTypes : Bindings Local SootClass) (u : Stmt) :
    recordParameter p valueTypes u = assignAll valueTypes (parameterClass p u).toList := by
  cases u with
  | identity leftOp rightOp =>
    cases leftOp with
    | immediate value =>
      cases value with
      | loc left =>
        cases rightOp with
        | parameterRef index type =>
          cases type with
          | refType sootClass =>
            by_cases binder : isBinderClass p sootClass = true <;>
              simp [recordParameter, parameterClass, binder, assignAll, assign]
          | other text => rfl
        | _ => rfl
      | constant text => cases rightOp <;> rfl
    | _ => cases rightOp <;> rfl
  | _ => rfl

/-- The map of classes is filled by the parameters and then by the assignments. -/
theorem valueDefines_eq (mtd : SootMethod) : (run p mtd).valueDefines =
    assignAll (assignAll ∅ ((p.units mtd).filterMap (parameterClass p))) ((p.units mtd).filterMap assignedClass) := by
  have parameters (units : List Stmt) (valueTypes : Bindings Local SootClass) :
      units.foldl (recordParameter p) valueTypes = assignAll valueTypes (units.filterMap (parameterClass p)) := by
    induction units generalizing valueTypes with
    | nil => rfl
    | cons u units ih =>
      rw [List.foldl_cons, ih, recordParameter_defines]
      cases given : parameterClass p u <;> simp [given, assignAll]
  have assignments (units : List Stmt) (facts : PointTo) :
      (units.foldl recordStatement facts).valueDefines = assignAll facts.valueDefines (units.filterMap assignedClass) := by
    induction units generalizing facts with
    | nil => rfl
    | cons u units ih =>
      rw [List.foldl_cons, ih, recordStatement_defines]
      cases given : assignedClass u <;> simp [given, assignAll]
  rw [run_eq, assignments, parseMethodBinderParameters_eq, parameters]

/-- What is known of a local is what it holds. -/
theorem localDefine_iff (mtd : SootMethod) (l : Local) (cls : SootClass) :
    getLocalDefine (run p mtd) l = some cls ↔ Holds p mtd l cls := by
  rw [getLocalDefine_eq, valueDefines_eq, lookup_assignAll, lookup_assignAll]
  simp [Holds]

/-! ## One statement -/

variable (p)

/-- The first of the arguments to hold an exit class holds this one. -/
def FirstBinder (mtd : SootMethod) (args : List Immediate) (cls : SootClass) : Prop :=
  ∃ before l after, args = before ++ .loc l :: after ∧ Holds p mtd l cls ∧ isExitClass p cls = true ∧
    ∀ other known, .loc other ∈ before → Holds p mtd other known → isExitClass p known = false

/-- What the check says of a statement that inserts. -/
inductive Describes (mtd : SootMethod) (u : Stmt) : VulnerableApiDesc → Prop where
  | callback (invoked : u.invokeExpr? = some inv) (other : inv.isInterface = false)
      (resolved : p.resolve inv.methodRef = .ok cur) (cls : cur.declaringClass.name = kRemoteCallback)
      (name : cur.name = kRemoteListRegisterName) :
      Describes mtd u { checked := mtd, binderCls := mtd.declaringClass, listTag := kRemoteCallback }
  | list (invoked : u.invokeExpr? = some inv) (other : inv.isInterface = false)
      (resolved : p.resolve inv.methodRef = .ok cur) (cls : cur.declaringClass.name ∈ listClassTypes)
      (name : cur.name ∈ listAddMethods)
      (outside : ∀ receiver, getInvokeLocalFiled inv = some receiver → ¬ AssignedNew p mtd receiver)
      (binder : FirstBinder p mtd inv.args binderCls) :
      Describes mtd u { checked := mtd, binderCls, listTag := cur.declaringClass.name }

/-- The check passes over the statement. -/
def Quiet (mtd : SootMethod) (u : Stmt) : Prop := ¬ Unresolvable p u ∧ ∀ vul, ¬ Describes p mtd u vul

variable {p}

theorem binderArgument_iff (mtd : SootMethod) (args : List Immediate) (cls : SootClass) :
    binderArgument p (run p mtd) args = some cls ↔ FirstBinder p mtd args cls := by
  rw [binderArgument, List.findSome?_eq_some_iff]
  constructor
  · rintro ⟨before, arg, after, split, found, nothing⟩
    cases arg with
    | constant text => cases found
    | loc l =>
      obtain ⟨defined, exits⟩ := Option.filter_eq_some_iff.mp found
      refine ⟨before, l, after, split, (localDefine_iff mtd l cls).mp defined, exits, fun other known member holds => ?_⟩
      have skipped := Option.filter_eq_none_iff.mp (nothing _ member)
      exact Bool.eq_false_iff.mpr (skipped known ((localDefine_iff mtd other known).mpr holds))
  · rintro ⟨before, l, after, split, holds, exits, nothing⟩
    refine ⟨before, .loc l, after, split, ?_, fun arg member => ?_⟩
    · exact Option.filter_eq_some_iff.mpr ⟨(localDefine_iff mtd l cls).mpr holds, exits⟩
    · cases arg with
      | constant text => rfl
      | loc other =>
        refine Option.filter_eq_none_iff.mpr fun known defined => ?_
        simp [nothing other known member ((localDefine_iff mtd other known).mp defined)]

/-- The description of a call whose method is known. -/
theorem describes_iff (invoked : u.invokeExpr? = some inv) (other : inv.isInterface = false)
    (resolved : p.resolve inv.methodRef = .ok cur) (vul : VulnerableApiDesc) : Describes p mtd u vul ↔
      ((cur.declaringClass.name = kRemoteCallback ∧ cur.name = kRemoteListRegisterName) ∧
        vul = { checked := mtd, binderCls := mtd.declaringClass, listTag := kRemoteCallback }) ∨
      ((cur.declaringClass.name ∈ listClassTypes ∧ cur.name ∈ listAddMethods) ∧
        (∀ receiver, getInvokeLocalFiled inv = some receiver → ¬ AssignedNew p mtd receiver) ∧
        ∃ cls, FirstBinder p mtd inv.args cls ∧
          vul = { checked := mtd, binderCls := cls, listTag := cur.declaringClass.name }) := by
  constructor
  · rintro (⟨same, _, found, cls, name⟩ | ⟨same, _, found, cls, name, outside, binder⟩)
    · obtain rfl := Option.some.inj (invoked.symm.trans same)
      obtain rfl := Except.ok.inj (resolved.symm.trans found)
      exact .inl ⟨⟨cls, name⟩, rfl⟩
    · obtain rfl := Option.some.inj (invoked.symm.trans same)
      obtain rfl := Except.ok.inj (resolved.symm.trans found)
      exact .inr ⟨⟨cls, name⟩, outside, _, binder, rfl⟩
  · rintro (⟨⟨cls, name⟩, rfl⟩ | ⟨⟨cls, name⟩, outside, _, binder, rfl⟩)
    · exact .callback invoked other resolved cls name
    · exact .list invoked other resolved cls name outside binder

theorem detectResolved_describes (invoked : u.invokeExpr? = some inv) (other : inv.isInterface = false)
    (resolved : p.resolve inv.methodRef = .ok cur)
    (ran : detectResolved p mtd (run p mtd) inv cur flag = .ok (found, next)) (vul : VulnerableApiDesc) :
    found = some vul ↔ Describes p mtd u vul := by
  rw [describes_iff invoked other resolved]
  unfold detectResolved at ran
  split at ran
  · rename_i registration
    cases ran
    have unlisted : kRemoteCallback ∉ listClassTypes := by decide
    simp only [registration, and_self, true_and, unlisted, false_and, or_false, Option.some.injEq]
    exact eq_comm
  · rename_i unregistered
    simp only [unregistered, false_and, false_or]
    split at ran
    · rename_i adds
      split at ran
      · rename_i kept
        cases ran
        obtain ⟨receiver, held, counted⟩ := (Option.any_eq_true _ _).mp kept
        refine iff_of_false nofun fun ⟨_, outside, _⟩ => ?_
        exact outside receiver held ((isLocalValue_iff mtd receiver).mp counted)
      · rename_i outside
        cases ran
        have elsewhere (receiver : Local) (held : getInvokeLocalFiled inv = some receiver) : ¬ AssignedNew p mtd receiver := by
          simpa [held, ← isLocalValue_iff] using outside
        simp only [Option.map_eq_some_iff, binderArgument_iff, adds, and_self, true_and]
        constructor
        · rintro ⟨cls, binder, rfl⟩
          exact ⟨elsewhere, cls, binder, rfl⟩
        · rintro ⟨_, cls, binder, rfl⟩
          exact ⟨cls, binder, rfl⟩
    · rename_i unlisted
      cases ran
      exact iff_of_false nofun fun ⟨adds, _⟩ => unlisted adds

/-- A statement is decided unless its call is not found, and then reports what
describes it. -/
theorem checkStatement_iff (mtd : SootMethod) (u : Stmt) (flag : Bool) (found : Option VulnerableApiDesc) (next : Bool) :
    checkStatement p mtd (run p mtd) u flag = .ok (found, next) ↔ ¬ Unresolvable p u ∧
      (∀ vul, found = some vul ↔ Describes p mtd u vul) ∧ (next = true ↔ flag = true ∨ HasExitPoint p u) := by
  have described (found : Option VulnerableApiDesc) (next : Bool)
      (ran : checkStatement p mtd (run p mtd) u flag = .ok (found, next)) (vul : VulnerableApiDesc) :
      found = some vul ↔ Describes p mtd u vul := by
    unfold checkStatement at ran
    cases invoked : u.invokeExpr? with
    | none =>
      rw [invoked] at ran
      cases ran
      refine iff_of_false nofun ?_
      rintro (⟨same, _⟩ | ⟨same, _⟩) <;> cases invoked.symm.trans same
    | some inv =>
      simp only [invoked, bind, StateT.bind, checkContainExitPoint_eq, Except.bind] at ran
      cases interface : inv.isInterface with
      | true =>
        rw [detectAddToList_interface _ interface] at ran
        cases ran
        refine iff_of_false nofun ?_
        rintro (⟨same, other, _⟩ | ⟨same, other, _⟩) <;> cases invoked.symm.trans same <;> cases interface.symm.trans other
      | false =>
        cases resolved : p.resolve inv.methodRef with
        | error problem =>
          rw [detectAddToList_error _ interface resolved] at ran
          cases ran
        | ok cur =>
          rw [detectAddToList_resolved _ interface resolved] at ran
          exact detectResolved_describes invoked interface resolved ran vul
  constructor
  · intro ran
    refine ⟨fun lost => ?_, described found next ran, (checkStatement_spec ran).2⟩
    obtain ⟨problem, fails⟩ := checkStatement_unresolvable mtd lost flag
    cases ran.symm.trans fails
  · rintro ⟨judged, describes, flagged⟩
    rcases checkStatement_cases mtd (run p mtd) u flag with ⟨other, after, ran, _⟩ | ⟨inv, problem, invoked, call, fails, _⟩
    · have sameFound : found = other := by
        ext vul
        rw [describes, described other after ran]
      have sameFlag : next = after := Bool.eq_iff_iff.mpr (flagged.trans (checkStatement_spec ran).2.symm)
      rw [ran, sameFound, sameFlag]
    · exact absurd ⟨inv, invoked, call, problem, fails⟩ judged

/-! ## The body -/

theorem checkStatement_quiet (quiet : Quiet p mtd u) (flag : Bool) : ∃ next,
    checkStatement p mtd (run p mtd) u flag = .ok (none, next) ∧ (next = true ↔ flag = true ∨ HasExitPoint p u) := by
  classical
  have flagged : decide (flag = true ∨ HasExitPoint p u) = true ↔ flag = true ∨ HasExitPoint p u := decide_eq_true_iff
  exact ⟨_, (checkStatement_iff ..).mpr ⟨quiet.1, fun vul => iff_of_false nofun (quiet.2 vul), flagged⟩, flagged⟩

theorem checkStatement_reports (describes : Describes p mtd u vul) (flag : Bool) : ∃ next,
    checkStatement p mtd (run p mtd) u flag = .ok (some vul, next) ∧ (next = true ↔ flag = true ∨ HasExitPoint p u) := by
  rcases checkStatement_cases mtd (run p mtd) u flag with ⟨found, next, ran, _⟩ | ⟨inv, problem, invoked, _, fails, _⟩
  · obtain ⟨_, described, flagged⟩ := (checkStatement_iff ..).mp ran
    obtain rfl := (described vul).mpr describes
    exact ⟨next, ran, flagged⟩
  · rcases describes with ⟨same, _, resolved, _⟩ | ⟨same, _, resolved, _⟩
    all_goals
      obtain rfl := Option.some.inj (invoked.symm.trans same)
      cases fails.symm.trans resolved

/-- The loop passes over its statements exactly when it can pass over each, and
leaves with every exit point seen. -/
theorem quiet_iff (mtd : SootMethod) (units : List Stmt) (flag next : Bool) :
    units.findSomeM? (checkStatement p mtd (run p mtd)) flag = .ok (none, next) ↔
      (∀ u ∈ units, Quiet p mtd u) ∧ (next = true ↔ flag = true ∨ ∃ seen ∈ units, HasExitPoint p seen) := by
  induction units generalizing flag with
  | nil =>
    simp only [List.not_mem_nil, false_imp_iff, implies_true, false_and, exists_false, or_false, true_and]
    exact ⟨fun ran => by cases ran; exact Iff.rfl, fun same => by rw [Bool.eq_iff_iff.mpr same]; rfl⟩
  | cons u units ih =>
    rw [loop_cons, List.forall_mem_cons, List.exists_mem_cons_iff, ← or_assoc]
    constructor
    · intro ran
      rcases stepped : checkStatement p mtd (run p mtd) u flag with problem | ⟨_ | vul, middle⟩
      · rw [stepped] at ran
        cases ran
      · rw [stepped] at ran
        obtain ⟨rest, flagged⟩ := (ih middle).mp ran
        obtain ⟨judged, silent, raised⟩ := (checkStatement_iff ..).mp stepped
        rw [raised] at flagged
        exact ⟨⟨⟨judged, fun vul described => nomatch (silent vul).mpr described⟩, rest⟩, flagged⟩
      · rw [stepped] at ran
        cases ran
    · rintro ⟨⟨quiet, rest⟩, flagged⟩
      obtain ⟨middle, ran, raised⟩ := checkStatement_quiet quiet flag
      rw [ran]
      exact (ih middle).mpr ⟨rest, by rwa [raised]⟩

/-- What the check says of a body: it describes the first statement that inserts,
or passes over all of them, with the exit points seen so far; and it fails exactly
at a call that is not found before anything is inserted. -/
theorem check_exact (p : Program) (mtd : SootMethod) :
    (∀ vul flag, check p mtd = .ok (some vul, flag) ↔ ∃ before u after, p.units mtd = before ++ u :: after ∧
      (∀ earlier ∈ before, Quiet p mtd earlier) ∧ Describes p mtd u vul ∧
      (flag = true ↔ ∃ seen ∈ before ++ [u], HasExitPoint p seen)) ∧
    (∀ flag, check p mtd = .ok (none, flag) ↔
      (∀ u ∈ p.units mtd, Quiet p mtd u) ∧ (flag = true ↔ ∃ seen ∈ p.units mtd, HasExitPoint p seen)) ∧
    ((∃ problem, check p mtd = .error problem) ↔ ∃ before u after, p.units mtd = before ++ u :: after ∧
      (∀ earlier ∈ before, Quiet p mtd earlier) ∧ Unresolvable p u) := by
  have quiet (units : List Stmt) (flag : Bool) :
      units.findSomeM? (checkStatement p mtd (run p mtd)) false = .ok (none, flag) ↔
        (∀ u ∈ units, Quiet p mtd u) ∧ (flag = true ↔ ∃ seen ∈ units, HasExitPoint p seen) := by
    simpa using quiet_iff mtd units false flag
  have seen (before : List Stmt) (u : Stmt) : (∃ seen ∈ before ++ [u], HasExitPoint p seen) ↔
      (∃ seen ∈ before, HasExitPoint p seen) ∨ HasExitPoint p u := by
    simp [or_and_right, exists_or]
  have passes (before : List Stmt) (silent : ∀ earlier ∈ before, Quiet p mtd earlier) : ∃ middle,
      before.findSomeM? (checkStatement p mtd (run p mtd)) false = .ok (none, middle) ∧
        (middle = true ↔ ∃ seen ∈ before, HasExitPoint p seen) := by
    classical
    have marked : decide (∃ seen ∈ before, HasExitPoint p seen) = true ↔ ∃ seen ∈ before, HasExitPoint p seen :=
      decide_eq_true_iff
    exact ⟨_, (quiet before _).mpr ⟨silent, marked⟩, marked⟩
  refine ⟨fun vul flag => ?_, fun flag => quiet (p.units mtd) flag, ?_⟩
  · refine (loop_found_iff _).trans ?_
    constructor
    · rintro ⟨before, u, after, middle, split, passed, reports⟩
      obtain ⟨silent, raised⟩ := (quiet before middle).mp passed
      obtain ⟨_, describes, flagged⟩ := (checkStatement_iff ..).mp reports
      refine ⟨before, u, after, split, silent, (describes vul).mp rfl, ?_⟩
      rw [flagged, raised, seen]
    · rintro ⟨before, u, after, split, silent, describes, flagged⟩
      obtain ⟨middle, passed, raised⟩ := passes before silent
      obtain ⟨next, reports, marked⟩ := checkStatement_reports describes middle
      have same : flag = next := by
        rw [Bool.eq_iff_iff, flagged, marked, raised, seen]
      exact ⟨before, u, after, middle, split, passed, same ▸ reports⟩
  · constructor
    · rintro ⟨problem, failed⟩
      obtain ⟨before, u, after, middle, split, passed, fails⟩ := (loop_failed_iff _).mp failed
      refine ⟨before, u, after, split, ((quiet before middle).mp passed).1, ?_⟩
      rcases checkStatement_cases mtd (run p mtd) u middle with ⟨_, _, ran, _⟩ | ⟨inv, cause, invoked, other, lost, _⟩
      · cases fails.symm.trans ran
      · exact ⟨inv, invoked, other, cause, lost⟩
    · rintro ⟨before, u, after, split, silent, lost⟩
      obtain ⟨middle, passed, _⟩ := passes before silent
      obtain ⟨problem, fails⟩ := checkStatement_unresolvable mtd lost middle
      exact ⟨problem, (loop_failed_iff _).mpr ⟨before, u, after, middle, split, passed, fails⟩⟩

end JgreAnalysis.InsertionReports
