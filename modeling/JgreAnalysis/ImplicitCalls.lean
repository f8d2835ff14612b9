import JgreAnalysis.BinderHierarchy
import JgreAnalysis.ImplicitCallResolver

/-! What an implicit call is resolved to. For every argument whose class is known
the resolver takes the methods of that class which override something visible of
the parameter's class. Two of its tests are narrower than the relations they
stand for: the one for subtypes, and the one for constructors. -/
namespace JgreAnalysis.ImplicitCalls
open SootModel FrameworkScene BinderHierarchy PointToAnalysis ImplicitCallResolver
open Relation

variable (f : Framework)

/-- One class is another or lies below it, through superclasses and interfaces. -/
def SubtypeOf (sc sup : SootClass) : Prop := ReflTransGen (DirectSupertype f) sc sup

/-- The test of the resolver for a subtype. -/
def PassesTest (sc sup : SootClass) : Prop := f.isSubclass sc sup = true ∨ sup ∈ f.interfaces sc

/-- The parameter of this class is given a local that holds an object of that
class. -/
def GivenFor (inv : InvokeExpr) (mtd : SootMethod) (parameter argument : SootClass) : Prop :=
  ∃ (i : ℕ) (l : Local), inv.methodRef.parameterTypes[i]? = some (.refType parameter) ∧ inv.args[i]? = some (.loc l) ∧
    getLocalDefine (run f.toProgram mtd) l = some argument

/-- The method has the sub-signature of a public or protected method of the
class. -/
def Overrides (parent : SootClass) (m : SootMethod) : Prop :=
  ∃ inherited ∈ f.methods parent, (inherited.isProtected = true ∨ inherited.isPublic = true) ∧
    inherited.subSignature = m.subSignature

def isConstructor (m : SootMethod) : Prop := m.name = "<init>"

/-- The methods that an implicit call leads to. -/
def CalledBack (inv : InvokeExpr) (mtd m : SootMethod) : Prop :=
  ∃ parameter argument, GivenFor f inv mtd parameter argument ∧ SubtypeOf f argument parameter ∧
    m ∈ f.methods argument ∧ ¬ isConstructor m ∧ Overrides f parameter m

/-- No constructor with arguments passes for an overriding method. -/
def NoConstructorPasses (inv : InvokeExpr) (mtd : SootMethod) : Prop :=
  ∀ parameter argument, GivenFor f inv mtd parameter argument → PassesTest f argument parameter →
    ∀ m ∈ f.methods argument, Overrides f parameter m → isConstructor m → m.subSignature = "void <init>()"

/-- What an argument overrides that is a subtype and fails the test is also
overridden for an argument that passes it. -/
def MissedCovered (inv : InvokeExpr) (mtd : SootMethod) : Prop :=
  ∀ parameter argument, GivenFor f inv mtd parameter argument → SubtypeOf f argument parameter →
    ¬ PassesTest f argument parameter → ∀ m ∈ f.methods argument, Overrides f parameter m → ¬ isConstructor m →
    ∃ other known, GivenFor f inv mtd other known ∧ PassesTest f known other ∧ m ∈ f.methods known ∧ Overrides f other m

/-- `FastHierarchy.isSubclass` follows superclasses. -/
def SubclassesBelow : Prop := ∀ child parent, f.isSubclass child parent = true → ReflTransGen (Extends f) child parent

/-- A sub-signature names its method. -/
def ConstructorsNamed : Prop := ∀ sc, ∀ m ∈ f.methods sc, m.subSignature = "void <init>()" → isConstructor m

variable {f}

/-! ## What the resolver returns -/

theorem mem_getOverrideMethods (parent overri : SootClass) (m : SootMethod) :
    m ∈ getOverrideMethods f.toProgram parent overri ↔
      m ∈ f.methods overri ∧ Overrides f parent m ∧ m.subSignature ≠ "void <init>()" := by
  simp only [getOverrideMethods, KeyedSets.mem_addAll, List.not_mem_nil, false_or, List.mem_filter, List.mem_map,
    decide_eq_true_eq, Overrides, Bool.and_eq_true, Bool.or_eq_true, bne_iff_ne]
  refine and_congr Iff.rfl ?_
  constructor
  · rintro ⟨inherited, ⟨declared, visible, ordinary⟩, same⟩
    exact ⟨⟨inherited, declared, visible, same⟩, same ▸ ordinary⟩
  · rintro ⟨⟨inherited, declared, visible, same⟩, ordinary⟩
    exact ⟨inherited, ⟨declared, visible, same ▸ ordinary⟩, same⟩

theorem realType_iff (v : Immediate) (mtd : SootMethod) (parameter argument : SootClass) :
    resolveRealTypeInMethod f.toProgram v mtd parameter = some argument ↔
      ∃ l, v = .loc l ∧ getLocalDefine (run f.toProgram mtd) l = some argument ∧ PassesTest f argument parameter := by
  cases v with
  | constant text => simp [resolveRealTypeInMethod]
  | loc l => simp [resolveRealTypeInMethod, Option.filter_eq_some_iff, PassesTest]

/-- What one parameter adds to the methods. -/
def addFor (f : Framework) (mtd : SootMethod) (methods : List SootMethod) (pair : SootType × Immediate) : List SootMethod :=
  match pair.1 with
  | .refType cls =>
    match resolveRealTypeInMethod f.toProgram pair.2 mtd cls with
    | some realType => KeyedSets.addAll id methods (getOverrideMethods f.toProgram cls realType)
    | none => methods
  | .other _ => methods

theorem mem_addFor (mtd : SootMethod) (methods : List SootMethod) (pair : SootType × Immediate) (m : SootMethod) :
    m ∈ addFor f mtd methods pair ↔ m ∈ methods ∨ ∃ parameter argument, pair.1 = .refType parameter ∧
      resolveRealTypeInMethod f.toProgram pair.2 mtd parameter = some argument ∧
      m ∈ getOverrideMethods f.toProgram parameter argument := by
  unfold addFor
  split
  · rename_i cls reference
    split
    · rename_i realType known
      simp [KeyedSets.mem_addAll, reference, known]
    · rename_i unknown
      simp [reference, unknown]
  · rename_i other reference
    simp [reference]

/-- The parameters add up. -/
theorem mem_adds (mtd : SootMethod) (methods : List SootMethod) (pairs : List (SootType × Immediate)) (m : SootMethod) :
    m ∈ pairs.foldl (addFor f mtd) methods ↔ m ∈ methods ∨ ∃ pair ∈ pairs, ∃ parameter argument,
      pair.1 = .refType parameter ∧ resolveRealTypeInMethod f.toProgram pair.2 mtd parameter = some argument ∧
      m ∈ getOverrideMethods f.toProgram parameter argument := by
  induction pairs generalizing methods with
  | nil => simp
  | cons pair pairs ih =>
    rw [List.foldl_cons, ih, mem_addFor, or_assoc, List.exists_mem_cons_iff]

/-- An implicit call is resolved to the methods that pass the tests. -/
theorem mem_resolve (implicit : isImplicitCall f.toProgram inv = true) (m : SootMethod) :
    m ∈ resolve f.toProgram inv mtd ↔ ∃ parameter argument, GivenFor f inv mtd parameter argument ∧
      PassesTest f argument parameter ∧ m ∈ f.methods argument ∧ Overrides f parameter m ∧
      m.subSignature ≠ "void <init>()" := by
  have opened : resolve f.toProgram inv mtd =
      (inv.methodRef.parameterTypes.zip inv.args).foldl (addFor f mtd) [] := by
    rw [resolve, if_pos implicit]
    rfl
  rw [opened, mem_adds]
  simp only [List.not_mem_nil, false_or, realType_iff, mem_getOverrideMethods]
  constructor
  · rintro ⟨⟨type, v⟩, member, parameter, argument, rfl, ⟨l, rfl, known, passes⟩, declared, overrides, ordinary⟩
    obtain ⟨i, listed⟩ := List.mem_iff_getElem?.mp member
    obtain ⟨typed, given⟩ := List.getElem?_zip_eq_some.mp listed
    exact ⟨parameter, argument, ⟨i, l, typed, given, known⟩, passes, declared, overrides, ordinary⟩
  · rintro ⟨parameter, argument, ⟨i, l, typed, given, known⟩, passes, declared, overrides, ordinary⟩
    refine ⟨(.refType parameter, .loc l), ?_, parameter, argument, rfl, ⟨l, rfl, known, passes⟩, declared, overrides, ordinary⟩
    exact List.mem_iff_getElem?.mpr ⟨i, List.getElem?_zip_eq_some.mpr ⟨typed, given⟩⟩

/-! ## Against the methods called back -/

theorem subtype_of_test (below : SubclassesBelow f) (passes : PassesTest f argument parameter) :
    SubtypeOf f argument parameter := by
  rcases passes with subclass | named
  · exact (below argument parameter subclass).lift id fun _ _ => .inl
  · exact .single (.inr named)

/-- The resolver returns exactly the methods called back when neither of its two
tests makes a difference. -/
theorem resolved_exactly_iff (below : SubclassesBelow f) (named : ConstructorsNamed f)
    (implicit : isImplicitCall f.toProgram inv = true) (mtd : SootMethod) :
    (∀ m, m ∈ resolve f.toProgram inv mtd ↔ CalledBack f inv mtd m) ↔
      NoConstructorPasses f inv mtd ∧ MissedCovered f inv mtd := by
  constructor
  · intro exact_
    constructor
    · intro parameter argument given passes m declared overrides constructed
      by_contra ordinary
      have found := (mem_resolve implicit m).mpr ⟨parameter, argument, given, passes, declared, overrides, ordinary⟩
      obtain ⟨_, _, _, _, _, method, _⟩ := (exact_ m).mp found
      exact method constructed
    · intro parameter argument given subtype _ m declared overrides method
      have found := (exact_ m).mpr ⟨parameter, argument, given, subtype, declared, method, overrides⟩
      obtain ⟨other, known, given, passes, declared, overrides, _⟩ := (mem_resolve implicit m).mp found
      exact ⟨other, known, given, passes, declared, overrides⟩
  · rintro ⟨noConstructor, covered⟩ m
    rw [mem_resolve implicit]
    constructor
    · rintro ⟨parameter, argument, given, passes, declared, overrides, ordinary⟩
      have method : ¬ isConstructor m := fun constructed =>
        ordinary (noConstructor parameter argument given passes m declared overrides constructed)
      exact ⟨parameter, argument, given, subtype_of_test below passes, declared, method, overrides⟩
    · rintro ⟨parameter, argument, given, subtype, declared, method, overrides⟩
      have ordinary : m.subSignature ≠ "void <init>()" := fun same => method (named argument m declared same)
      by_cases passes : PassesTest f argument parameter
      · exact ⟨parameter, argument, given, passes, declared, overrides, ordinary⟩
      · obtain ⟨other, known, given, passes, declared, overrides⟩ :=
          covered parameter argument given subtype passes m declared overrides method
        exact ⟨other, known, given, passes, declared, overrides, ordinary⟩

/-- A service that registers an observer of its own and posts a task, whose
class inherits the interface from the one it extends. -/
def observer : SootClass := ⟨"Observer"⟩

def task : SootClass := ⟨"Task"⟩

def contentObserver : SootClass := ⟨"android.database.ContentObserver"⟩

def runnable : SootClass := ⟨"java.lang.Runnable"⟩

def constructorOf (sc : SootClass) : SootMethod :=
  { declaringClass := sc, name := "<init>", subSignature := "void <init>(android.os.Handler)" }

def runOf (sc : SootClass) : SootMethod := { declaringClass := sc, name := "run", subSignature := "void run()" }

def registerCall : InvokeExpr :=
  ⟨.virtual ⟨"resolver", 2⟩, ⟨⟨"android.content.ContentResolver"⟩, "registerContentObserver",
    [.refType contentObserver], .other "void", "registerContentObserver"⟩, [.loc ⟨"observer", 0⟩]⟩

def postCall : InvokeExpr :=
  ⟨.virtual ⟨"handler", 3⟩, ⟨⟨"android.os.Handler"⟩, "post", [.refType runnable], .other "boolean", "post"⟩,
    [.loc ⟨"task", 1⟩]⟩

def registering : Framework :=
  { sampleFramework { sampleProgram fun _ =>
      [.assign (.immediate (.loc ⟨"observer", 0⟩)) (.newExpr observer),
        .assign (.immediate (.loc ⟨"task", 1⟩)) (.newExpr task), .invoke registerCall, .invoke postCall] with
      methods := fun sc =>
        if sc = observer ∨ sc = contentObserver then [constructorOf sc]
        else if sc = task ∨ sc = runnable then [runOf sc]
        else []
      interfaces := fun sc => if sc = ⟨"BaseTask"⟩ then [runnable] else []
      isSubclass := fun child parent => decide (child = observer ∧ parent = contentObserver)
      edgeMiner := ["android.content.ContentResolver.registerContentObserver:onChange", "android.os.Handler.post:run"] } with
    superclass := fun sc =>
      if sc = observer then some contentObserver else if sc = task then some ⟨"BaseTask"⟩ else none }

theorem registering_below : SubclassesBelow registering := by
  intro child parent subclass
  obtain ⟨rfl, rfl⟩ : child = observer ∧ parent = contentObserver := of_decide_eq_true subclass
  exact .single rfl

theorem registering_named : ConstructorsNamed registering := by
  intro sc m member same
  have listed : m ∈ (if sc = observer ∨ sc = contentObserver then [constructorOf sc]
      else if sc = task ∨ sc = runnable then [runOf sc] else []) := member
  split at listed
  · obtain rfl := List.mem_singleton.mp listed
    simp [constructorOf] at same
  · split at listed
    · obtain rfl := List.mem_singleton.mp listed
      simp [runOf] at same
    · cases listed

theorem registering_registers : loadEdgeMinerCallbacks registering.edgeMiner =
    [getMethodSmaliName registerCall, getMethodSmaliName postCall] := by
  decide +kernel

theorem registering_implicit (call : inv = registerCall ∨ inv = postCall) :
    isImplicitCall registering.toProgram inv = true := by
  have listed : getMethodSmaliName inv ∈ loadEdgeMinerCallbacks registering.edgeMiner := by
    rw [registering_registers]
    rcases call with rfl | rfl <;> simp
  exact decide_eq_true listed

theorem resolved_exactly_iff_registering : SubclassesBelow registering ∧ ConstructorsNamed registering ∧
    isImplicitCall registering.toProgram postCall = true ∧
    ((∀ m, m ∈ resolve registering.toProgram postCall (sampleMethod "entry") ↔
        CalledBack registering postCall (sampleMethod "entry") m) ↔
      NoConstructorPasses registering postCall (sampleMethod "entry") ∧
        MissedCovered registering postCall (sampleMethod "entry")) := by
  have implicit := registering_implicit (.inr rfl)
  exact ⟨registering_below, registering_named, implicit,
    resolved_exactly_iff registering_below registering_named implicit (sampleMethod "entry")⟩

/-- The constructor of the observer counts as overriding that of its superclass,
and the task is not seen to be runnable. -/
theorem registering_not_exact : isImplicitCall registering.toProgram registerCall = true ∧
    constructorOf observer ∈ resolve registering.toProgram registerCall (sampleMethod "entry") ∧
    ¬ CalledBack registering registerCall (sampleMethod "entry") (constructorOf observer) ∧
    isImplicitCall registering.toProgram postCall = true ∧
    runOf task ∉ resolve registering.toProgram postCall (sampleMethod "entry") ∧
    CalledBack registering postCall (sampleMethod "entry") (runOf task) := by
  have defined : getLocalDefine (run registering.toProgram (sampleMethod "entry")) ⟨"task", 1⟩ = some task := by
    decide +kernel
  have observed : getLocalDefine (run registering.toProgram (sampleMethod "entry")) ⟨"observer", 0⟩ = some observer := by
    decide +kernel
  have registers := registering_implicit (.inl rfl)
  have posts := registering_implicit (.inr rfl)
  refine ⟨registers, ?_, ?_, posts, ?_, ?_⟩
  · refine (mem_resolve registers _).mpr ⟨contentObserver, observer, ⟨0, ⟨"observer", 0⟩, rfl, rfl, observed⟩, ?_, ?_, ?_, ?_⟩
    · exact .inl (by decide)
    · exact List.mem_singleton_self _
    · exact ⟨constructorOf contentObserver, List.mem_singleton_self _, .inr rfl, rfl⟩
    · simp [constructorOf]
  · rintro ⟨_, _, _, _, _, method, _⟩
    exact method rfl
  · intro found
    obtain ⟨parameter, argument, ⟨i, l, typed, given, known⟩, passes, _⟩ := (mem_resolve posts _).mp found
    obtain ⟨rfl, rfl⟩ : i = 0 ∧ parameter = runnable := by
      cases i with
      | zero => exact ⟨rfl, by cases typed; rfl⟩
      | succ i => simp [postCall] at typed
    cases given
    rw [defined] at known
    cases known
    rcases passes with subclass | named
    · exact absurd subclass (by decide)
    · exact absurd named (by decide)
  · have extends_ : DirectSupertype registering task ⟨"BaseTask"⟩ := .inl rfl
    have implements_ : DirectSupertype registering ⟨"BaseTask"⟩ runnable := .inr (by decide)
    refine ⟨runnable, task, ⟨0, ⟨"task", 1⟩, rfl, rfl, defined⟩, .head extends_ (.single implements_), ?_, ?_, ?_⟩
    · decide
    · simp [isConstructor, runOf]
    · exact ⟨runOf runnable, by decide, .inr rfl, rfl⟩

end JgreAnalysis.ImplicitCalls
