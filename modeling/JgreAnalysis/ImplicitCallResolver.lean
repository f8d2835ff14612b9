import JgreAnalysis.KeyedSets
import JgreAnalysis.PointToAnalysis

/-! Calls that go through a framework callback. The registration call names the
callback type, and the methods called later are those that the class of the
argument overrides. -/
namespace JgreAnalysis.ImplicitCallResolver
open SootModel PointToAnalysis

def filterCallbacks (cb : String) : Bool :=
  !startsWith cb "android.R$" && !startsWith cb "android.test"

/-- The registration methods that the EdgeMiner lines name, up to the first
colon of each line. -/
def loadEdgeMinerCallbacks (lines : List String) : List String :=
  (lines.filter fun li => startsWith li "android" && filterCallbacks li).map fun li =>
    String.ofList (li.toList.takeWhile (· ≠ ':'))

def getMethodSmaliName (inv : InvokeExpr) : String :=
  inv.methodRef.declaringClass.name ++ "." ++ inv.methodRef.name

variable (p : Program)

def isImplicitCall (inv : InvokeExpr) : Bool :=
  decide (getMethodSmaliName inv ∈ loadEdgeMinerCallbacks p.edgeMiner)

def resolveRealTypeInMethod (v : Immediate) (mtd : SootMethod) (paramType : SootClass) : Option SootClass :=
  match v with
  | .loc l => (getLocalDefine (run p mtd) l).filter fun define =>
    p.isSubclass define paramType || decide (paramType ∈ p.interfaces define)
  | .constant _ => none

def getOverrideMethods (parent overri : SootClass) : List SootMethod :=
  let inherited := ((p.methods parent).filter fun mtd =>
    (mtd.isProtected || mtd.isPublic) && mtd.subSignature != "void <init>()").map (·.subSignature)
  KeyedSets.addAll id [] ((p.methods overri).filter fun mtd => decide (mtd.subSignature ∈ inherited))

def resolve (inv : InvokeExpr) (mtd : SootMethod) : List SootMethod :=
  if isImplicitCall p inv then
    (inv.methodRef.parameterTypes.zip inv.args).foldl (fun methods pair =>
      match pair.1 with
      | .refType cls =>
        match resolveRealTypeInMethod p pair.2 mtd cls with
        | some realType => KeyedSets.addAll id methods (getOverrideMethods p cls realType)
        | none => methods
      | .other _ => methods) []
  else []

end JgreAnalysis.ImplicitCallResolver
