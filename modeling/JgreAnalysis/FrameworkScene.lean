import JgreAnalysis.BinderClasses
import JgreAnalysis.KeyedSets

/-! The part of the scene that only the extraction of services reads: the loaded
classes as a list, the links of their hierarchy, and the types of values. -/
namespace JgreAnalysis.FrameworkScene
open SootModel BinderClasses

/-- A program with what else Soot answers about it. -/
structure Framework extends Program where
  applicationClasses : List SootClass
  /-- `SootClass.isConcrete`, neither an interface nor abstract. -/
  isConcrete : SootClass → Bool
  superclass : SootClass → Option SootClass
  getSubclassesOf : SootClass → List SootClass
  getImplementersOf : SootClass → List SootClass
  isAbstract : SootMethod → Bool
  returnType : SootMethod → SootType
  /-- `SootMethod.getSignature`, which is also its text. -/
  signature : SootMethod → String
  localType : Local → SootType
  constantType : String → SootType
  classOrder : HashOrder SootClass

def OBJECT : SootClass := ⟨"java.lang.Object"⟩

def typeText : SootType → String
  | .refType sootClass => sootClass.name
  | .other name => name

/-- The type of a null constant. -/
def nullType : SootType := .other "null_type"

variable (f : Framework)

/-- `Value.getType`. -/
def typeOf : Value → SootType
  | .immediate (.loc l) => f.localType l
  | .immediate (.constant text) => f.constantType text
  | .instanceFieldRef _ field => field.type
  | .parameterRef _ type => type
  | .newExpr sootClass => .refType sootClass
  | .invoke expr => expr.methodRef.returnType
  | .cast type _ => type
  | .other _ type => type

/-- A class constant is the constant whose type is the class of classes. -/
def isClassConstant : Immediate → Bool
  | .loc _ => false
  | .constant text => f.constantType text == .refType ⟨"java.lang.Class"⟩

/-- `SootTool.getClsFromValue`. A class constant has a class type as well, so
nothing is left for the second test of the source. -/
def getClsFromValue (value : Value) : Option SootClass :=
  match typeOf f value with
  | .refType sootClass => some sootClass
  | .other _ => none

/-- `Immediate.toString`. -/
def immediateText : Immediate → String
  | .loc l => l.name
  | .constant text => text

/-- The invokes among the use boxes of a method's body, in order. -/
def Framework.invokes (mtd : SootMethod) : List InvokeExpr := (f.units mtd).filterMap Stmt.invokeExpr?

/-- A guarded look at one invoke: it calls the method of the class. What cannot
be resolved does not. -/
def invokesMethod (mtdName clsName : String) (expr : InvokeExpr) : Bool :=
  match f.resolve expr.methodRef with
  | .ok cur => cur.name == mtdName && cur.declaringClass.name == clsName
  | .error _ => false

def checkClsContainsMethodCall (cls : SootClass) (mtdName clsName : String) : Bool :=
  (f.methods cls).any fun mtd => (f.invokes mtd).any (invokesMethod f mtdName clsName)

def getSubClassList (sc : SootClass) : List SootClass :=
  if f.isInterface sc then f.getImplementersOf sc else f.getSubclassesOf sc

/-- The loop of `getInfForClass` over its work list, for so many rounds. -/
def collectInterfaces : ℕ → List SootClass → List SootClass → Option (List SootClass)
  | _, [], ret => some ret
  | 0, _ :: _, _ => none
  | rounds + 1, cur :: allCls, ret =>
    if cur = OBJECT then collectInterfaces rounds allCls ret
    else collectInterfaces rounds
      (allCls ++ (f.superclass cur).toList.filter (· ≠ OBJECT) ++ f.interfaces cur)
      (KeyedSets.addAll id ret (f.interfaces cur))

/-- The interfaces above a class, nothing when the rounds do not suffice. -/
def getInfForClass (rounds : ℕ) (cls : SootClass) : Option (List SootClass) :=
  (collectInterfaces f rounds [cls] (if f.isInterface cls then [cls] else [])).map f.classOrder.arrange

def getInfForImpl (rounds : ℕ) (sc : SootClass) : Option SootClass := do
  let infList ← getInfForClass f rounds sc
  pure ((infList.find? fun inf => isIInterface f.toProgram inf).getD sc)

/-- A program to which Soot has little more to say. -/
def sampleFramework (p : Program) : Framework where
  toProgram := p
  applicationClasses := []
  isConcrete _ := true
  superclass _ := none
  getSubclassesOf _ := []
  getImplementersOf _ := []
  isAbstract _ := false
  returnType _ := .other "void"
  signature mtd := mtd.declaringClass.name ++ ": " ++ mtd.subSignature
  localType _ := nullType
  constantType _ := nullType
  classOrder := insertionOrder

end JgreAnalysis.FrameworkScene
