import JgreAnalysis.FileNames
import JgreAnalysis.LoopLaws
import JgreAnalysis.NativeCallGraph

/-! Where the native analysis starts. The functions of a directory whose names
look like native methods become entry points, by the spelling of their
cursors. -/
namespace JgreAnalysis.NativeEntryPoints
open SootModel FileNames ClangCursor NativeCallGraph

/-- Nothing is taken from the JNI map yet. -/
def jniMethods : List String := []

/-- The string that a function declaration adds to the entry points. -/
def entryPoint? (n : Cursor) : Option String :=
  if startsWith n.spelling "android_" ∨ n.spelling ∈ jniMethods then some n.spelling else none

/-- What ends the search for entry points: a file that libclang cannot be given or
cannot parse, and a cursor of a kind that the binding does not know. -/
inductive ExtractProblem where
  | parseFailed
  | unknownKind
  deriving DecidableEq, Repr

variable (sources : Sources) (knows : CursorKind → Bool)

/-- `extract_method_defines_in_file`, which parses without the flags of the
build. -/
def extractMethodDefinesInFile (src : FileName) : Except ExtractProblem (List Cursor) :=
  match (encode src).bind sources.parseBare with
  | some root => if kindsKnown knows root then pure (extractMethodInNode root) else throw .unknownKind
  | none => throw .parseFailed

def addEntryPoints (entryPoints : List String) (cpp : FileName) : Except ExtractProblem (List String) := do
  let nodes ← extractMethodDefinesInFile sources knows cpp
  pure (KeyedSets.addAll id entryPoints (nodes.filterMap entryPoint?))

/-- The set of entry points of some files. -/
def entryPointsOf (cppFiles : List FileName) : Except ExtractProblem (List String) :=
  cppFiles.foldlM (addEntryPoints sources knows) []

/-- The file gives the tree of this root, with cursors of known kinds. -/
def Extracts (cpp : FileName) (root : Cursor) : Prop :=
  (encode cpp).bind sources.parseBare = some root ∧ ∀ c, Below c root → knows c.kind = true

variable {sources knows}

theorem addEntryPoints_ok_iff (start : List String) (cpp : FileName) (next : List String) :
    addEntryPoints sources knows start cpp = .ok next ↔ ∃ root, Extracts sources knows cpp root ∧
      next = KeyedSets.addAll id start ((extractMethodInNode root).filterMap entryPoint?) := by
  simp only [addEntryPoints, extractMethodDefinesInFile, Extracts, ← kindsKnown_iff, LoopLaws.bind_ok]
  cases (encode cpp).bind sources.parseBare with
  | none => simp [throw, throwThe, MonadExceptOf.throw]
  | some root =>
    by_cases known : kindsKnown knows root = true
    · simp only [known, if_true, pure, Except.pure, Except.ok.injEq, exists_eq_left', Option.some.injEq, and_assoc, true_and]
      exact eq_comm
    · simp [known, throw, throwThe, MonadExceptOf.throw]

theorem mem_foldEntryPoints (cppFiles : List FileName) (start : List String)
    (ran : cppFiles.foldlM (addEntryPoints sources knows) start = .ok final) (name : String) :
    name ∈ final ↔ name ∈ start ∨ ∃ cpp ∈ cppFiles, ∃ root, Extracts sources knows cpp root ∧
      ∃ f, Below f root ∧ f.kind = .functionDecl ∧ entryPoint? f = some name := by
  induction cppFiles generalizing start with
  | nil =>
    cases ran
    simp
  | cons cpp cppFiles ih =>
    rw [List.foldlM_cons] at ran
    obtain ⟨next, added, rest⟩ := LoopLaws.bind_ok.mp ran
    obtain ⟨root, extracts, rfl⟩ := (addEntryPoints_ok_iff start cpp next).mp added
    have same (other : Cursor) : Extracts sources knows cpp other ↔ other = root :=
      ⟨fun again => Option.some.inj (again.1.symm.trans extracts.1), fun equal => equal ▸ extracts⟩
    rw [ih _ rest, KeyedSets.mem_addAll, or_assoc, List.exists_mem_cons_iff]
    refine or_congr Iff.rfl (or_congr ?_ Iff.rfl)
    simp only [List.mem_filterMap, mem_extractMethodInNode, and_assoc, same, exists_eq_left]

/-- The entry points of some files are the strings that their function
declarations add. -/
theorem mem_entryPointsOf (found : entryPointsOf sources knows cppFiles = .ok entryPoints) (name : String) :
    name ∈ entryPoints ↔ ∃ cpp ∈ cppFiles, ∃ root, Extracts sources knows cpp root ∧
      ∃ f, Below f root ∧ f.kind = .functionDecl ∧ entryPoint? f = some name := by
  simpa using mem_foldEntryPoints cppFiles [] found name

/-- The entry points are found exactly when every file gives a tree of known
kinds. -/
theorem entryPointsOf_ok_iff (cppFiles : List FileName) : (∃ entryPoints, entryPointsOf sources knows cppFiles = .ok entryPoints) ↔
    ∀ cpp ∈ cppFiles, ∃ root, Extracts sources knows cpp root := by
  have folded (start : List String) : (∃ entryPoints, cppFiles.foldlM (addEntryPoints sources knows) start = .ok entryPoints) ↔
      ∀ cpp ∈ cppFiles, ∃ root, Extracts sources knows cpp root := by
    induction cppFiles generalizing start with
    | nil => exact ⟨fun _ => by simp, fun _ => ⟨start, rfl⟩⟩
    | cons cpp cppFiles ih =>
      simp only [List.foldlM_cons, List.forall_mem_cons, LoopLaws.bind_ok, addEntryPoints_ok_iff]
      constructor
      · rintro ⟨final, _, ⟨root, extracts, rfl⟩, rest⟩
        exact ⟨⟨root, extracts⟩, (ih _).mp ⟨final, rest⟩⟩
      · rintro ⟨⟨root, extracts⟩, later⟩
        obtain ⟨final, rest⟩ := (ih _).mpr later
        exact ⟨final, _, ⟨root, extracts, rfl⟩, rest⟩
  exact folded []

/-- A function's entry point is the name its calls are recorded under exactly
when no scope around it, up to the translation unit, has a name. -/
theorem entryPoint_is_key_iff (root f : Cursor) (inside : Below f root) (function : f.kind = .functionDecl)
    (named : startsWith f.spelling "android_" = true) :
    (f ∈ extractMethodInNode root ∧ entryPoint? f = some (getMethodSimpleName f.node)) ↔
      ∀ scope ∈ enclosing f.node.semanticParents, scope.displayname = "" := by
  have listed : f ∈ extractMethodInNode root := (mem_extractMethodInNode root f).mpr ⟨inside, function⟩
  have key : getMethodSimpleName f.node = fullyQualifiedSpelling (f.node.toNames :: f.node.semanticParents) := by
    have kind : f.node.kind = .functionDecl := function
    simp [getMethodSimpleName, kind, Node.path]
  have ordinary : f.node.toNames.kind ≠ .translationUnit := by
    intro unit
    have kind : f.node.toNames.kind = .functionDecl := function
    rw [kind] at unit
    cases unit
  rw [← fullyQualifiedSpelling_eq_spelling _ ordinary, ← key]
  simp only [listed, entryPoint?, named, true_or, if_true, Option.some.injEq, true_and]
  exact eq_comm

/-- A native method outside of any namespace. -/
def globalMethod : Cursor := definitionOf (sampleFunction [unitNames] "android_init") 1 []

theorem entryPoint_is_key_iff_global : globalMethod ∈ extractMethodInNode (unitOf [globalMethod]) ∧
    entryPoint? globalMethod = some (getMethodSimpleName globalMethod.node) :=
  (entryPoint_is_key_iff (unitOf [globalMethod]) globalMethod (.child List.mem_cons_self) rfl (by decide)).mpr
    (by decide)

/-- A native method in a namespace, with a call to record. -/
def scopedMethod : Cursor :=
  definitionOf (sampleFunction [⟨.nameSpace, "android", "android"⟩, unitNames] "android_init") 1
    [callOf (sampleFunction [unitNames] "retain")]

def scopedUnit : Cursor :=
  unitOf [.mk { kind := .nameSpace, spelling := "android", displayname := "android" } none {} [scopedMethod]]

def scopedSources : Sources := sampleSources scopedUnit ["namespace android \x7b void android_init() \x7b retain(); \x7d \x7d"]

/-- The entry point names no key of the graph, and the call is recorded under
another name. -/
theorem scopedMethod_not_explored : scopedMethod ∈ extractMethodInNode scopedUnit ∧
    scopedMethod.kind = .functionDecl ∧ startsWith scopedMethod.spelling "android_" = true ∧
    entryPoint? scopedMethod = some "android_init" ∧ getMethodSimpleName scopedMethod.node = "android::android_init" ∧
    entryPoint? scopedMethod ≠ some (getMethodSimpleName scopedMethod.node) ∧
    getCallSet (addFiles scopedSources ["f.cpp"]) "android_init" = [] ∧
    getCallSet (addFiles scopedSources ["f.cpp"]) "android::android_init" ≠ [] := by
  refine ⟨?_, rfl, by decide, by decide, by decide, by decide, by decide +kernel, by decide +kernel⟩
  exact (mem_extractMethodInNode _ _).mpr ⟨.deeper (.child List.mem_cons_self) List.mem_cons_self, rfl⟩

end JgreAnalysis.NativeEntryPoints
