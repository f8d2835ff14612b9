import JgreAnalysis.FrameworkScene
import JgreAnalysis.ServiceApi

/-! The helper classes that the framework registers. Every registration call of
the registry's initializer names a manager and a block whose `createService`
returns the helper. -/
namespace JgreAnalysis.ServiceHelperExtractor
open SootModel FrameworkScene ServiceApi

def kServiceHelperRegisterCls : SootClass := ⟨"android.app.SystemServiceRegistry"⟩
def kServiceHelperRegisterFunc : String := "registerService"
def kServiceHelperCreateFunc : String := "createService"
def kGetServiceMtd : String := "<android.os.ServiceManager: android.os.IBinder getService(java.lang.String)>"
def kGetServiceMtd2 : String := "<android.os.ServiceManager: android.os.IBinder getServiceOrThrow(java.lang.String)>"

/-- What ends an extraction before it has a result. `unfinished` is a loop that
needs more rounds than it was given. -/
inductive ExtractionProblem where
  | resolutionFailed (problem : ResolutionFailed)
  | missingBody
  | missingArgument
  | nullPointer
  | assertFailed
  | panic
  | unfinished
  deriving DecidableEq, Repr

abbrev Extraction := Except ExtractionProblem

variable (f : Framework)

/-- `InvokeExpr.getMethod`. -/
def getMethod (expr : InvokeExpr) : Extraction SootMethod := (f.resolve expr.methodRef).mapError .resolutionFailed

def retrieveActiveBody (mtd : SootMethod) : Extraction Body :=
  match f.retrieveActiveBody mtd with
  | some body => pure body
  | none => throw .missingBody

/-- A Kotlin `!!`. -/
def nonNull (value : Option α) : Extraction α :=
  match value with
  | some value => pure value
  | none => throw .nullPointer

def argument (expr : InvokeExpr) (index : ℕ) : Extraction Immediate :=
  match expr.args[index]? with
  | some arg => pure arg
  | none => throw .missingArgument

def isInitMethod (mtd : SootMethod) : Bool := mtd.subSignature == "void <clinit>()"

/-- The operand of the first return of a value, or of the first whose type is
not that of null. -/
def getReturnFromMethod (mtd : SootMethod) (notNull : Bool) : Extraction (Option Immediate) := do
  let b ← retrieveActiveBody f mtd
  pure <| b.units.findSome? fun expr =>
    match expr with
    | .ret op => if notNull ∧ typeOf f (.immediate op) = nullType then none else some op
    | _ => none

/-- The binder that the method asks the service manager for. -/
def extractBinderTag (mtd : SootMethod) : Extraction (Option String) := do
  let b ← retrieveActiveBody f mtd
  (b.units.filterMap Stmt.invokeExpr?).findSomeM? fun inv => do
    let called := f.signature (← getMethod f inv)
    if called = kGetServiceMtd ∨ called = kGetServiceMtd2 then pure (some (immediateText (← argument inv 0)))
    else pure none

def createsService (mtd : SootMethod) : Bool :=
  mtd.name == kServiceHelperCreateFunc && typeText (f.returnType mtd) != OBJECT.name

def extractServiceApiFromRegisterBlock (cls : SootClass) : Extraction (Option ServiceApiClass) := do
  let createMtd ← nonNull ((f.methods cls).find? (createsService f))
  let ret ← getReturnFromMethod f createMtd true
  let helper := getClsFromValue f (.immediate (← nonNull ret))
  let helperClass ← nonNull helper
  pure (some { helperClass := some helperClass, serviceName := ← extractBinderTag f createMtd })

/-- The class that a registration names, from its block or else from the class
constant. -/
def getServiceHelperRegisterName (invoke : InvokeExpr) : Extraction (Option SootClass) := do
  let registered ← getMethod f invoke
  match invoke.args with
  | _ :: tag :: _ =>
    if registered.name = kServiceHelperRegisterFunc ∧ isClassConstant f tag then do
      let call ← argument invoke 2
      let cls := getClsFromValue f (.immediate call)
      let created ← ((cls.map f.methods).getD []).findSomeM? fun mtd =>
        if createsService f mtd then do
          let ret ← nonNull (← getReturnFromMethod f mtd true)
          match getClsFromValue f (.immediate ret) with
          | some sc => pure (some sc)
          | none => throw .panic
        else pure none
      pure (created <|> getClsFromValue f (.immediate tag))
    else pure none
  | _ => pure none

def resolveServiceHelperRegister (invoke : InvokeExpr) : Extraction (Option ServiceApiClass) := do
  let registered ← getMethod f invoke
  match invoke.args with
  | managerName :: tag :: block :: _ =>
    if registered.name = kServiceHelperRegisterFunc ∧ isClassConstant f tag then do
      let blockCls ← nonNull (getClsFromValue f (.immediate block))
      let api ← extractServiceApiFromRegisterBlock f blockCls
      if api.isNone then throw .assertFailed
      let api ← match api with
        | some api => pure (some api)
        | none => do
          let helper ← getServiceHelperRegisterName f invoke
          pure (helper.map fun helper => { helperClass := some helper : ServiceApiClass })
      pure (api.map fun api => { api with managerName := some (immediateText managerName) })
    else pure none
  | _ => pure none

/-- The entries in the order in which they are made. Each is a new object, so
the set that the source puts them into keeps all of them. -/
def findRegisteredServiceHelperClass : Extraction (List ServiceApiClass) := do
  match (f.methods kServiceHelperRegisterCls).find? isInitMethod with
  | none => throw .panic
  | some registerMtd => do
    let body ← retrieveActiveBody f registerMtd
    let apis ← (body.units.filterMap Stmt.invokeExpr?).mapM (resolveServiceHelperRegister f)
    pure (apis.filterMap id)

end JgreAnalysis.ServiceHelperExtractor
