import Mathlib.Data.Finset.Insert
import JgreAnalysis.LoopLaws
import JgreAnalysis.PointToAnalysis

/-! One method is checked for two things: whether it puts a binder object into
a collection, and whether it contains an exit point of a binder reference. -/
namespace JgreAnalysis.ExitPointChecker
open SootModel BinderClasses PointToAnalysis LoopLaws

/-- A finding, or the report it becomes. Descriptions are objects, compared by
identity, and each check allocates at most one: `checked` is the method whose
check allocated this one. -/
structure VulnerableApiDesc where
  checked : SootMethod
  binderCls : SootClass
  entryPoint : Option SootMethod := none
  callChain : List SootMethod := []
  listTag : String := ""
  deriving DecidableEq, Repr

def kRemoteCallback : String := "android.os.RemoteCallbackList"
def kRemoteListRegisterName : String := "register"
def listClassTypes : List String :=
  ["android.util.SparseArray", "java.util.HashMap", "android.util.ArrayMap",
    "java.util.ArrayList", "java.util.Map", "java.util.List"]
def listAddMethods : List String := ["add", "put"]
def kIBinderInf : String := "android.os.IBinder"
def exitPointMthods : List String := ["asBinder", "linkToDeath"]

variable (p : Program)

def isExitClass (sc : SootClass) : Bool :=
  isBinderClass p sc ||
  (p.interfaces sc).any (fun inf => startsWith inf.name kIBinderInf) ||
  (p.fields sc).any fun fi =>
    match fi.type with
    | .refType cls =>
      cls.name == kIBinderInf || (p.interfaces cls).any fun inf => startsWith inf.name kIBinderInf
    | .other _ => false

/-- `SootTool.getInvokeLocalFiled`: the only box of an invoke that holds a
local and nothing else is the box of its receiver. -/
def getInvokeLocalFiled (inv : InvokeExpr) : Option Local :=
  match inv.kind with
  | .interface base | .virtual base | .special base => some base
  | .static | .dynamic => none

/-- A checker over its flag `containExitPoint`. -/
abbrev Checking := StateT Bool (Except ResolutionFailed)

def checkContainExitPoint (inv : InvokeExpr) : Checking Unit :=
  if inv.methodRef.name ∈ exitPointMthods then set true else pure ()

/-- The class of the first argument that is a local of an exit class. -/
def binderArgument (facts : PointTo) (args : List Immediate) : Option SootClass :=
  args.findSome? fun arg =>
    match arg with
    | .loc l => (getLocalDefine facts l).filter (isExitClass p)
    | .constant _ => none

/-- The part of `detectAddToList` behind the resolution of the call. -/
def detectResolved (entryMtd : SootMethod) (facts : PointTo) (inv : InvokeExpr) (cur : SootMethod) :
    Checking (Option VulnerableApiDesc) :=
  let clsName := cur.declaringClass.name
  if clsName = kRemoteCallback ∧ cur.name = kRemoteListRegisterName then do
    set true
    pure (some { checked := entryMtd, binderCls := entryMtd.declaringClass, listTag := clsName })
  else if clsName ∈ listClassTypes ∧ cur.name ∈ listAddMethods then
    if (getInvokeLocalFiled inv).any (isLocalValue facts) then pure none
    else pure ((binderArgument p facts inv.args).map fun valCls =>
      { checked := entryMtd, binderCls := valCls, listTag := clsName })
  else pure none

def detectAddToList (entryMtd : SootMethod) (facts : PointTo) (inv : InvokeExpr) :
    Checking (Option VulnerableApiDesc) :=
  if inv.isInterface then pure none
  else do detectResolved p entryMtd facts inv (← p.resolve inv.methodRef)

/-- One round of the loop of `containBinderList`. -/
def checkStatement (entryMtd : SootMethod) (facts : PointTo) (u : Stmt) : Checking (Option VulnerableApiDesc) :=
  match u.invokeExpr? with
  | some inv => do
    checkContainExitPoint inv
    detectAddToList p entryMtd facts inv
  | none => pure none

/-- The loop leaves at the first insertion found, so exit points behind that
statement are not looked at. -/
def containBinderList (entryMtd : SootMethod) : Checking (Option VulnerableApiDesc) :=
  (p.units entryMtd).findSomeM? (checkStatement p entryMtd (run p entryMtd))

/-- A fresh checker of one method, run: what it found and its final flag. -/
def check (mtd : SootMethod) : Except ResolutionFailed (Option VulnerableApiDesc × Bool) :=
  (containBinderList p mtd).run false

variable {p}

theorem detectAddToList_interface (facts : PointTo) (interface : inv.isInterface = true) :
    detectAddToList p entryMtd facts inv flag = .ok (none, flag) := by
  simp only [detectAddToList, interface, if_true]
  rfl

theorem detectAddToList_error (facts : PointTo) (other : inv.isInterface = false)
    (fails : p.resolve inv.methodRef = .error problem) : detectAddToList p entryMtd facts inv flag = .error problem := by
  simp only [detectAddToList, other, fails]
  rfl

theorem detectAddToList_resolved (facts : PointTo) (other : inv.isInterface = false)
    (resolved : p.resolve inv.methodRef = .ok cur) :
    detectAddToList p entryMtd facts inv flag = detectResolved p entryMtd facts inv cur flag := by
  simp only [detectAddToList, other, resolved]
  rfl

/-- A resolved call is always decided, and what it finds was allocated for the
method under check. -/
theorem detectResolved_ok (entryMtd : SootMethod) (facts : PointTo) (inv : InvokeExpr) (cur : SootMethod)
    (flag : Bool) : ∃ found next, detectResolved p entryMtd facts inv cur flag = .ok (found, next) ∧
      ∀ vul, found = some vul → vul.checked = entryMtd := by
  unfold detectResolved
  split
  · exact ⟨_, _, rfl, fun vul same => by cases same; rfl⟩
  · split
    · split
      · exact ⟨_, _, rfl, fun vul same => by cases same⟩
      · refine ⟨_, _, rfl, fun vul same => ?_⟩
        obtain ⟨valCls, _, rfl⟩ := Option.map_eq_some_iff.mp same
        rfl
    · exact ⟨_, _, rfl, fun vul same => by cases same⟩

/-- One statement is decided unless it has a non-interface invoke that does not
resolve. -/
theorem checkStatement_cases (entryMtd : SootMethod) (facts : PointTo) (u : Stmt) (flag : Bool) :
    (∃ found next, checkStatement p entryMtd facts u flag = .ok (found, next) ∧
      ∀ vul, found = some vul → vul.checked = entryMtd) ∨
    ∃ inv problem, u.invokeExpr? = some inv ∧ inv.isInterface = false ∧ p.resolve inv.methodRef = .error problem ∧
      checkStatement p entryMtd facts u flag = .error problem := by
  unfold checkStatement
  cases invoked : u.invokeExpr? with
  | none => exact .inl ⟨none, flag, rfl, fun vul same => by cases same⟩
  | some inv =>
    have flagged : ∃ flag', checkContainExitPoint inv flag = .ok ((), flag') := by
      unfold checkContainExitPoint
      split <;> exact ⟨_, rfl⟩
    obtain ⟨flag', flagged⟩ := flagged
    simp only [bind, StateT.bind, flagged, Except.bind]
    cases interface : inv.isInterface with
    | true => exact .inl ⟨none, flag', detectAddToList_interface facts interface, fun vul same => by cases same⟩
    | false =>
      cases resolved : p.resolve inv.methodRef with
      | error problem => exact .inr ⟨inv, problem, rfl, interface, resolved, detectAddToList_error facts interface resolved⟩
      | ok cur =>
        rw [detectAddToList_resolved facts interface resolved]
        exact .inl (detectResolved_ok entryMtd facts inv cur flag')

/-- A description comes from the check of the method it names. -/
theorem check_checked (checked : check p mtd = .ok (some vul, flag)) : vul.checked = mtd := by
  obtain ⟨before, u, after, middle, _, _, found⟩ := (loop_found_iff _).mp checked
  rcases checkStatement_cases mtd (run p mtd) u middle with ⟨answer, next, ran, own⟩ | ⟨inv, problem, _, _, _, ran⟩
  · rw [ran] at found
    cases found
    exact own vul rfl
  · simp [ran] at found

theorem check_total (resolve : MethodsResolve p) (mtd : SootMethod) : ∃ found, check p mtd = .ok found := by
  apply loop_total
  intro u member flag
  rcases checkStatement_cases mtd (run p mtd) u flag with ⟨answer, next, ran, _⟩ | ⟨inv, problem, invoked, other, fails, _⟩
  · exact ⟨_, ran⟩
  · obtain ⟨callee, resolved⟩ := resolve mtd u member inv invoked other
    rw [resolved] at fails
    cases fails

end JgreAnalysis.ExitPointChecker
