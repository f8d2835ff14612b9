import JgreAnalysis.JimpleValueSolver
import JgreAnalysis.ServiceHelperExtractor

/-! The classes that implement services. They are found where a binder object is
added to the service manager or published by a system service, and only the
registrations whose class is known stay. -/
namespace JgreAnalysis.ServiceImplExtractor
open SootModel FrameworkScene ServiceApi JimpleValueSolver ServiceHelperExtractor

def kServiceImplAddMtdName : String := "addService"
def kServiceImplAddClsName : String := "android.os.ServiceManager"
def kSystemServiceBaseClass : SootClass := ⟨"com.android.server.SystemService"⟩
def kIBinderCls : String := "android.os.IBinder"
def kServiceImplPublishFunc : String := "publishBinderService"

/-- Extraction over its field `implList`. -/
abbrev Extracting := StateT (List ServiceApiClass) Extraction

variable (f : Framework)

def findAddServiceList : List SootClass :=
  f.applicationClasses.filter fun cls => startsWith cls.name "com.android" && f.isConcrete cls &&
    checkClsContainsMethodCall f cls kServiceImplAddMtdName kServiceImplAddClsName

def filterMethodContainCalls (cls : SootClass) (callMtdName callMtdCls : String) : List SootMethod :=
  f.hashOrder.arrange <| KeyedSets.addAll id [] <|
    (f.methods cls).filter fun mtd => (f.invokes mtd).any (invokesMethod f callMtdName callMtdCls)

/-- The callback that the solver is given: it takes the first class that is not
`IBinder`. -/
def takeImplClass (mService : SootClass) : StateM (Option ServiceApiClass) Bool := fun impl =>
  if mService.name = kIBinderCls then (false, impl) else (true, some { implClass := some mService })

def resolveServiceImplInMethod (v : Value) (mtd : SootMethod) : Extraction (Option ServiceApiClass) := do
  let (_, impl) ← ((startToSearchValue f takeImplClass v mtd).run none).mapError .resolutionFailed
  pure impl

/-- One invoke of a method that adds services. An implementation that is not
found leaves an entry without one. -/
def resolveAddService (mtd : SootMethod) (expr : InvokeExpr) : Extracting Unit := do
  let call ← getMethod f expr
  if call.name = kServiceImplAddMtdName ∧ call.declaringClass.name = kServiceImplAddClsName then do
    let name := immediateText (← argument expr 0)
    let implClass ← resolveServiceImplInMethod f (.immediate (← argument expr 1)) mtd
    match implClass with
    | some impl => modify (· ++ [{ impl with serviceName := some name }])
    | none => modify (· ++ [{ helperClass := some OBJECT, serviceName := some name }])

def resolveServiceImplRegister (cls : SootClass) : Extracting Unit :=
  (filterMethodContainCalls f cls kServiceImplAddMtdName kServiceImplAddClsName).forM fun mtd =>
    (f.invokes mtd).forM (resolveAddService f mtd)

def searchServiceImplRegister : Extracting Unit := (findAddServiceList f).forM (resolveServiceImplRegister f)

/-- The first call of the class that publishes a service, with its method. -/
def findPublish (cls : SootClass) : Extraction (Option (InvokeExpr × SootMethod)) :=
  (f.methods cls).findSomeM? fun mtd => (f.invokes mtd).findSomeM? fun expr => do
    let called ← getMethod f expr
    if called.name = kServiceImplPublishFunc then pure (some (expr, mtd)) else pure none

def extractServicePublic (cls : SootClass) : Extraction (Option ServiceApiClass) :=
  if f.isInterface cls then pure none
  else do
    match ← findPublish f cls with
    | none => pure none
    | some (inv, invMtd) => do
      let name := immediateText (← argument inv 0)
      let implClass ← resolveServiceImplInMethod f (.immediate (← argument inv 1)) invMtd
      pure (some { implClass.getD {} with serviceName := some name })

def searchServiceImplPublish : Extracting Unit :=
  (getSubClassList f kSystemServiceBaseClass).forM fun cls => do
    match ← extractServicePublic f cls with
    | some sc => modify (· ++ [sc])
    | none => pure ()

/-- The interface of a service is looked for above its class. An interface that
implements a service keeps none. -/
def setStubInterfaceFromImpl (rounds : ℕ) (impl : ServiceApiClass) : Extraction ServiceApiClass :=
  match impl.implClass with
  | none => pure impl
  | some cls =>
    if f.isInterface cls then pure impl
    else match getInfForImpl f rounds cls with
      | some inf => pure { impl with inf := some inf }
      | none => throw .unfinished

/-- The entries with an implementing class, in the order in which they were
made. Each is an object of its own. -/
def extractServiceImpl (rounds : ℕ) : Extraction (List ServiceApiClass) := do
  let (_, implList) ← (do searchServiceImplRegister f; searchServiceImplPublish f : Extracting Unit).run []
  (implList.filter (·.implClass.isSome)).mapM (setStubInterfaceFromImpl f rounds)

end JgreAnalysis.ServiceImplExtractor
