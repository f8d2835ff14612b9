import Mathlib.Data.List.Perm.Basic

/-! The part of Soot's object model that the analysis reads. Classes, methods
and locals are identified as Soot identifies them, and everything a class or a
method is asked for is a question to the scene. Whatever Soot itself computes
(superclass closures, subclass tests, method resolution) stays a function of
the scene, because that code is not part of the analysis. -/
namespace JgreAnalysis.SootModel

/-- A class or interface. The scene holds one class for each name. -/
structure SootClass where
  name : String
  deriving DecidableEq, Repr

/-- A type is a `RefType` of a class or something else: a primitive, an array,
void or the null type. -/
inductive SootType where
  | refType (sootClass : SootClass)
  | other (name : String)
  deriving DecidableEq, Repr

structure SootField where
  name : String
  type : SootType
  deriving DecidableEq, Repr

/-- What an invoke expression names. It still has to be resolved. -/
structure SootMethodRef where
  declaringClass : SootClass
  name : String
  parameterTypes : List SootType
  returnType : SootType
  subSignature : String
  deriving DecidableEq, Repr

/-- A declared method. A class declares one method for each sub-signature. -/
structure SootMethod where
  declaringClass : SootClass
  name : String
  subSignature : String
  isPublic : Bool := true
  isProtected : Bool := false
  isConcrete : Bool := true
  deriving DecidableEq, Repr

/-- A local variable of a body. Original names may repeat, numbers do not. -/
structure Local where
  name : String
  number : ℕ := 0
  deriving DecidableEq, Repr

inductive Immediate where
  | loc (l : Local)
  | constant (text : String)
  deriving DecidableEq, Repr

/-- Only instance invokes have a receiver, so the receiver is part of the kind. -/
inductive InvokeKind where
  | interface (base : Local)
  | virtual (base : Local)
  | special (base : Local)
  | static
  | dynamic
  deriving DecidableEq, Repr

structure InvokeExpr where
  kind : InvokeKind
  methodRef : SootMethodRef
  args : List Immediate
  deriving DecidableEq, Repr

/-- `inv is InterfaceInvokeExpr`. -/
def InvokeExpr.isInterface (inv : InvokeExpr) : Bool :=
  match inv.kind with
  | .interface _ => true
  | _ => false

inductive Value where
  | immediate (value : Immediate)
  | instanceFieldRef (base : Local) (field : SootField)
  | parameterRef (index : ℕ) (type : SootType)
  | newExpr (sootClass : SootClass)
  | invoke (expr : InvokeExpr)
  | cast (type : SootType) (op : Immediate)
  | other (text : String) (type : SootType)
  deriving DecidableEq, Repr

inductive Stmt where
  | assign (leftOp rightOp : Value)
  | identity (leftOp rightOp : Value)
  | invoke (expr : InvokeExpr)
  | ret (op : Immediate)
  | other
  deriving DecidableEq, Repr

/-- `containsInvokeExpr` and `invokeExpr` in one: an invoke stands alone or on
the right of an assignment. -/
def Stmt.invokeExpr? : Stmt → Option InvokeExpr
  | .assign _ (.invoke expr) => some expr
  | .invoke expr => some expr
  | _ => none

structure Body where
  units : List Stmt

/-- The exception of `InvokeExpr.getMethod` for a reference without a method. -/
structure ResolutionFailed where
  methodRef : SootMethodRef
  deriving DecidableEq, Repr

/-- The loaded classes, with the questions that Soot answers about them. -/
structure Scene where
  isInterface : SootClass → Bool
  interfaces : SootClass → List SootClass
  methods : SootClass → List SootMethod
  fields : SootClass → List SootField
  /-- `Hierarchy.getSuperclassesOf`. -/
  getSuperclassesOf : SootClass → List SootClass
  /-- `FastHierarchy.isSubclass`, the first class below the second. -/
  isSubclass : SootClass → SootClass → Bool
  /-- `retrieveActiveBody`, with nothing where it throws. -/
  retrieveActiveBody : SootMethod → Option Body
  /-- `SootMethodRef.resolve`, which `InvokeExpr.getMethod` calls. -/
  resolve : SootMethodRef → Except ResolutionFailed SootMethod

/-- A hash set iterates over its elements in an order of its own. The elements
are listed as they were added, and the order may depend on that history too. -/
structure HashOrder (α : Type) where
  arrange : List α → List α
  arrange_perm : ∀ elements, (arrange elements).Perm elements

theorem HashOrder.mem_arrange (order : HashOrder α) : a ∈ order.arrange elements ↔ a ∈ elements :=
  (order.arrange_perm elements).mem_iff

/-- The order in which the elements were added. -/
def insertionOrder : HashOrder α := ⟨id, fun _ => .refl _⟩

/-- What one run of the analysis is given: the scene, the lines of the
configured EdgeMiner file, and the order in which hash sets iterate. -/
structure Program extends Scene where
  edgeMiner : List String
  hashOrder : HashOrder SootMethod

/-- The statements of a method, none when `tryGetMethodBody` gives null. -/
def Program.units (p : Program) (mtd : SootMethod) : List Stmt :=
  match p.retrieveActiveBody mtd with
  | some body => body.units
  | none => []

/-- Every non-interface invoke of every body resolves to a method. -/
def MethodsResolve (p : Program) : Prop :=
  ∀ mtd, ∀ u ∈ p.units mtd, ∀ inv, u.invokeExpr? = some inv → inv.isInterface = false →
    ∃ callee, p.resolve inv.methodRef = .ok callee

/-- Kotlin's and Python's test for an initial piece of a text. -/
def startsWith (text initial : String) : Bool := initial.toList.isPrefixOf text.toList

/-! ## Small programs

One class whose methods have the bodies given, with calls that resolve to the
method they name, a binder class and a binder interface. -/

def sampleMethod (name : String) : SootMethod := { declaringClass := ⟨"Service"⟩, name, subSignature := name }

def sampleProgram (bodies : String → List Stmt) : Program where
  isInterface _ := false
  interfaces sc :=
    if sc.name = "Callback" then [⟨"android.os.IBinder"⟩]
    else if sc.name = "IService" then [⟨"android.os.IInterface"⟩]
    else []
  methods _ := []
  fields _ := []
  getSuperclassesOf _ := []
  isSubclass _ _ := false
  retrieveActiveBody mtd := some ⟨bodies mtd.name⟩
  resolve ref := .ok { declaringClass := ref.declaringClass, name := ref.name, subSignature := ref.subSignature }
  edgeMiner := []
  hashOrder := insertionOrder

theorem sampleProgram_resolves (bodies : String → List Stmt) : MethodsResolve (sampleProgram bodies) :=
  fun _ _ _ _ _ _ => ⟨_, rfl⟩

def invocation (kind : InvokeKind) (sootClass name : String) (args : List Immediate) : Stmt :=
  .invoke ⟨kind, ⟨⟨sootClass⟩, name, [], .other "void", name⟩, args⟩

def callTo (name : String) : Stmt := invocation .static "Service" name []

end JgreAnalysis.SootModel
