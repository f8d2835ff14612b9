import Mathlib.Data.List.AList
import JgreAnalysis.ClangCursor
import JgreAnalysis.KeyedSets

/-! The call graph of the native sources. Walking a translation unit records an
edge for every call it meets, and a file that cannot be processed to its end
leaves the edges recorded before. -/
namespace JgreAnalysis.NativeCallGraph
open SootModel ClangCursor

def jgrMethodSignature : String := "_JNIEnv::NewGlobalRef"

/-- `Edge`: a called cursor, and the cursor it refers to or else itself. -/
structure Edge where
  node : Node
  isExitPoint : Bool := false
  deriving DecidableEq, Repr

def Edge.of (called : Cursor) : Edge := { node := called.referenced.getD called.node }

def Edge.simpleName (e : Edge) : String :=
  if e.isExitPoint then getMethodSimpleName e.node ++ " -> " ++ jgrMethodSignature
  else getMethodSimpleName e.node

/-- The key by which a set of edges tells them apart. -/
def Edge.fullName (e : Edge) : String :=
  if e.node.kind = .classDecl ∨ e.node.kind = .cxxMethod then fullyQualified e.node.path
  else e.node.displayname

/-- `method_calls`: a set of edges for each name. -/
abbrev CallGraph := AList fun _ : String => List Edge

def getCallSet (graph : CallGraph) (mtd : String) : List Edge := (graph.lookup mtd).getD []

def addToCallSet (graph : CallGraph) (name : String) (edge : Edge) : CallGraph :=
  graph.insert name (KeyedSets.add Edge.fullName (getCallSet graph name) edge)

/-- The files to analyse: what libclang parses with the flags of the build and
without any, and the lines that can be read. -/
structure Sources where
  parse : String → Option Cursor
  parseBare : String → Option Cursor
  lines : String → Option (List String)

def jgrTag : String := "env->NewGlobalRef"

/-- Python's `in` for texts. -/
def contains (text piece : String) : Bool := text.toList.tails.any piece.toList.isPrefixOf

/-- `utils.read_lines`: the slice of the lines, nothing when reading fails. -/
def readLines (sources : Sources) (file : String) (start stop : ℕ) : Option (List String) :=
  (sources.lines file).map fun data => (data.take stop).drop start

def getNodeRange (node : Cursor) : ℕ × ℕ :=
  (node.extent.start, node.children.foldl (fun last n => max last n.extent.stop) node.extent.stop)

/-- The exception of a loop over lines that were not read. -/
structure LinesMissing where
  deriving DecidableEq, Repr

/-- Recording goes on until an exception, which leaves the graph as it is. -/
abbrev Recording := ExceptT LinesMissing (StateM CallGraph)

variable (sources : Sources)

def record (name : String) (edge : Edge) : Recording Unit := modify fun graph => addToCallSet graph name edge

def addEdge (methodNode : Node) (callNode : Cursor) : Recording Unit :=
  record (getMethodSimpleName methodNode) (.of callNode)

/-- The loop of `__resolve_sp_class_init`, over whether `sp` was seen before. -/
def resolveSpClassInit (methodNode : Node) : Bool → List Cursor → Recording Unit
  | _, [] => pure ()
  | seen, n :: rest => do
    let isSpPointer := seen || (n.kind = .templateRef && n.spelling = "sp")
    if isSpPointer ∧ n.kind = .typeRef ∧ startsWith (fullyQualified n.node.path) "class" then
      addEdge methodNode n
    resolveSpClassInit methodNode isSpPointer rest

def findNewGlobalRefByHardcode (entryMethod : Node) (node : Cursor) : Recording Unit :=
  if node.kind ≠ .functionDecl then pure ()
  else
    let (first, last) := getNodeRange node
    if first < last then
      match readLines sources node.extent.file first last with
      | none => throw ⟨⟩
      | some lines => lines.forM fun li =>
        if contains li jgrTag then
          record (getMethodSimpleName entryMethod) { Edge.of node with isExitPoint := true }
        else pure ()
    else pure ()

mutual
def extractChildCallNode (entryMethod : Node) : Cursor → Recording Unit
  | .mk node refers extent children => do
    extractChildCallNodes entryMethod children
    findNewGlobalRefByHardcode sources entryMethod (.mk node refers extent children)

def extractChildCallNodes (entryMethod : Node) : List Cursor → Recording Unit
  | [] => pure ()
  | n :: rest => do
    if n.kind = .callExpr then addEdge entryMethod n
    if n.kind = .varDecl then resolveSpClassInit entryMethod false n.children
    extractChildCallNode entryMethod n
    extractChildCallNodes entryMethod rest
end

def extractMethodCallsInClass (node : Cursor) : Recording Unit :=
  node.children.forM fun n => do
    if n.kind = .constructor then extractChildCallNode sources n.node n
    if n.kind = .destructor then extractChildCallNode sources n.node n
    if n.kind = .cxxMethod then extractChildCallNode sources n.node n

mutual
def getEntryMethodNode : Cursor → Recording Unit
  | .mk _ _ _ children => getEntryMethodNodes children

def getEntryMethodNodes : List Cursor → Recording Unit
  | [] => pure ()
  | n :: rest => do
    if n.kind = .classDecl then extractMethodCallsInClass sources n
    if n.kind = .functionDecl then extractChildCallNode sources n.node n
    if n.kind = .nameSpace then getEntryMethodNode n
    getEntryMethodNodes rest
end

/-- Whatever goes wrong in a file is logged, and its edges so far stay. -/
def addFile (graph : CallGraph) (file : String) : CallGraph :=
  match sources.parse file with
  | none => graph
  | some root => ((getEntryMethodNode sources root).run graph).2

def addFiles (files : List String) : CallGraph := files.foldl (addFile sources) ∅

/-! ## What a file records

The walk never reads the graph, so what it does to the graph is a list of
additions that depends on the file alone. -/

inductive Event where
  | added (name : String) (edge : Edge)
  | linesMissing
  deriving DecidableEq, Repr

def replay : List Event → Recording Unit
  | [] => pure ()
  | .added name edge :: rest => do
    record name edge
    replay rest
  | .linesMissing :: _ => throw ⟨⟩

def spClassInitEvents (methodNode : Node) : Bool → List Cursor → List Event
  | _, [] => []
  | seen, n :: rest =>
    let isSpPointer := seen || (n.kind = .templateRef && n.spelling = "sp")
    (if isSpPointer ∧ n.kind = .typeRef ∧ startsWith (fullyQualified n.node.path) "class" then
      [.added (getMethodSimpleName methodNode) (.of n)] else []) ++
    spClassInitEvents methodNode isSpPointer rest

def newGlobalRefEvents (entryMethod : Node) (node : Cursor) : List Event :=
  if node.kind ≠ .functionDecl then []
  else
    let (first, last) := getNodeRange node
    if first < last then
      match readLines sources node.extent.file first last with
      | none => [.linesMissing]
      | some lines => (lines.filter (contains · jgrTag)).map fun _ =>
        .added (getMethodSimpleName entryMethod) { Edge.of node with isExitPoint := true }
    else []

mutual
def childEvents (entryMethod : Node) : Cursor → List Event
  | .mk node refers extent children =>
    childrenEvents entryMethod children ++ newGlobalRefEvents sources entryMethod (.mk node refers extent children)

def childrenEvents (entryMethod : Node) : List Cursor → List Event
  | [] => []
  | n :: rest =>
    (if n.kind = .callExpr then [.added (getMethodSimpleName entryMethod) (.of n)] else []) ++
    (if n.kind = .varDecl then spClassInitEvents entryMethod false n.children else []) ++
    childEvents entryMethod n ++ childrenEvents entryMethod rest
end

def classEvents (node : Cursor) : List Event :=
  node.children.flatMap fun n =>
    if n.kind = .constructor ∨ n.kind = .destructor ∨ n.kind = .cxxMethod then childEvents sources n.node n else []

mutual
def unitEvents : Cursor → List Event
  | .mk _ _ _ children => unitsEvents children

def unitsEvents : List Cursor → List Event
  | [] => []
  | n :: rest =>
    (if n.kind = .classDecl then classEvents sources n else []) ++
    (if n.kind = .functionDecl then childEvents sources n.node n else []) ++
    (if n.kind = .nameSpace then unitEvents n else []) ++ unitsEvents rest
end

variable {sources}

theorem replay_append (first rest : List Event) :
    replay (first ++ rest) = (do replay first; replay rest) := by
  induction first with
  | nil => simp [replay]
  | cons event first ih =>
    cases event with
    | added name edge => simp [replay, ih]
    | linesMissing => rfl

theorem replay_if (holds : Prop) [Decidable holds] (events : List Event) :
    replay (if holds then events else []) = if holds then replay events else pure () := by
  split <;> rfl

theorem addEdge_eq (methodNode : Node) (callNode : Cursor) :
    addEdge methodNode callNode = replay [.added (getMethodSimpleName methodNode) (.of callNode)] := by
  simp [addEdge, replay]

theorem resolveSpClassInit_eq (methodNode : Node) (seen : Bool) (children : List Cursor) :
    resolveSpClassInit methodNode seen children = replay (spClassInitEvents methodNode seen children) := by
  induction children generalizing seen with
  | nil => rfl
  | cons n rest ih =>
    simp only [resolveSpClassInit, spClassInitEvents, replay_append, replay_if, ← addEdge_eq, ih]
    split <;> simp

theorem findNewGlobalRef_eq (entryMethod : Node) (node : Cursor) :
    findNewGlobalRefByHardcode sources entryMethod node = replay (newGlobalRefEvents sources entryMethod node) := by
  unfold findNewGlobalRefByHardcode newGlobalRefEvents
  split
  · rfl
  · simp only
    split
    · cases readLines sources node.extent.file (getNodeRange node).1 (getNodeRange node).2 with
      | none => rfl
      | some lines =>
        simp only
        induction lines with
        | nil => rfl
        | cons li lines ih =>
          simp only [List.forM_eq_forM, List.forM_cons] at ih ⊢
          rw [ih]
          by_cases tagged : contains li jgrTag = true
          · simp [tagged, replay]
          · simp [tagged]
    · rfl

mutual
theorem extractChildCallNode_eq (entryMethod : Node) (c : Cursor) :
    extractChildCallNode sources entryMethod c = replay (childEvents sources entryMethod c) := by
  cases c with
  | mk node refers extent children =>
    simp only [extractChildCallNode, childEvents, replay_append, findNewGlobalRef_eq,
      extractChildCallNodes_eq entryMethod children]

theorem extractChildCallNodes_eq (entryMethod : Node) (nodes : List Cursor) :
    extractChildCallNodes sources entryMethod nodes = replay (childrenEvents sources entryMethod nodes) := by
  cases nodes with
  | nil => rfl
  | cons n rest =>
    simp only [extractChildCallNodes, childrenEvents, replay_append, replay_if, ← addEdge_eq,
      ← resolveSpClassInit_eq, ← extractChildCallNode_eq entryMethod n, ← extractChildCallNodes_eq entryMethod rest]
    split <;> split <;> simp
end

theorem extractMethodCallsInClass_eq (node : Cursor) :
    extractMethodCallsInClass sources node = replay (classEvents sources node) := by
  unfold extractMethodCallsInClass classEvents
  induction node.children with
  | nil => rfl
  | cons n rest ih =>
    rw [List.forM_eq_forM, List.forM_cons, ← List.forM_eq_forM, ih, List.flatMap_cons, replay_append, replay_if,
      ← extractChildCallNode_eq]
    cases kind : n.kind <;> simp

mutual
theorem getEntryMethodNode_eq (c : Cursor) : getEntryMethodNode sources c = replay (unitEvents sources c) := by
  cases c with
  | mk node refers extent children =>
    simp only [getEntryMethodNode, unitEvents, getEntryMethodNodes_eq children]

theorem getEntryMethodNodes_eq (nodes : List Cursor) :
    getEntryMethodNodes sources nodes = replay (unitsEvents sources nodes) := by
  cases nodes with
  | nil => rfl
  | cons n rest =>
    simp only [getEntryMethodNodes, unitsEvents, replay_append, replay_if, ← extractMethodCallsInClass_eq,
      ← extractChildCallNode_eq, ← getEntryMethodNode_eq n, ← getEntryMethodNodes_eq rest]
    split <;> split <;> split <;> simp
end

theorem spClassInitEvents_name (added : .added name edge ∈ spClassInitEvents methodNode seen children) :
    name = getMethodSimpleName methodNode := by
  induction children generalizing seen with
  | nil => cases added
  | cons n rest ih =>
    rcases List.mem_append.mp added with here | later
    · split at here
      · cases List.mem_singleton.mp here
        rfl
      · cases here
    · exact ih later

theorem newGlobalRefEvents_name (added : .added name edge ∈ newGlobalRefEvents sources entryMethod node) :
    name = getMethodSimpleName entryMethod := by
  unfold newGlobalRefEvents at added
  split at added
  · cases added
  · simp only at added
    split at added
    · split at added
      · cases List.mem_singleton.mp added
      · obtain ⟨_, _, same⟩ := List.mem_map.mp added
        cases same
        rfl
    · cases added

mutual
/-- Everything that is found below a definition is recorded under its simple
name. -/
theorem childEvents_name (c : Cursor) (added : .added name edge ∈ childEvents sources entryMethod c) :
    name = getMethodSimpleName entryMethod := by
  cases c with
  | mk node refers extent children =>
    rcases List.mem_append.mp added with below | fallback
    · exact childrenEvents_name children below
    · exact newGlobalRefEvents_name fallback

theorem childrenEvents_name (nodes : List Cursor) (added : .added name edge ∈ childrenEvents sources entryMethod nodes) :
    name = getMethodSimpleName entryMethod := by
  cases nodes with
  | nil => cases added
  | cons n rest =>
    rw [childrenEvents, List.mem_append, List.mem_append, List.mem_append] at added
    rcases added with ((call | init) | below) | later
    · split at call
      · cases List.mem_singleton.mp call
        rfl
      · cases call
    · split at init
      · exact spClassInitEvents_name init
      · cases init
    · exact childEvents_name n below
    · exact childrenEvents_name rest later
end

/-! ## The recorded operations -/

/-- The additions made before the first exception. -/
def performed : List Event → List (String × Edge)
  | .added name edge :: rest => (name, edge) :: performed rest
  | _ => []

variable (sources)

/-- The additions that processing a file makes to the graph. -/
def fileOperations (file : String) : List (String × Edge) :=
  match sources.parse file with
  | none => []
  | some root => performed (unitEvents sources root)

def operations (files : List String) : List (String × Edge) := files.flatMap (fileOperations sources)

/-- The graph after some additions. -/
def addOperations (graph : CallGraph) (ops : List (String × Edge)) : CallGraph :=
  ops.foldl (fun graph op => addToCallSet graph op.1 op.2) graph

variable {sources}

theorem replay_graph (events : List Event) (graph : CallGraph) :
    ((replay events).run graph).2 = addOperations graph (performed events) := by
  induction events generalizing graph with
  | nil => rfl
  | cons event events ih =>
    cases event with
    | added name edge => exact ih (addToCallSet graph name edge)
    | linesMissing => rfl

/-- Processing a file is making its additions. -/
theorem addFile_eq (graph : CallGraph) (file : String) :
    addFile sources graph file = addOperations graph (fileOperations sources file) := by
  unfold addFile fileOperations
  cases sources.parse file with
  | none => rfl
  | some root => simp only [getEntryMethodNode_eq, replay_graph]

theorem addFiles_eq (files : List String) : addFiles sources files = addOperations ∅ (operations sources files) := by
  unfold addFiles operations addOperations
  rw [List.foldl_flatMap]
  congr
  funext graph file
  exact addFile_eq graph file

/-! ## What the graph keeps -/

/-- The operation is the first that adds, under its name, an edge with its full
name. -/
def IsFirst (ops : List (String × Edge)) (op : String × Edge) : Prop :=
  ∃ before after, ops = before ++ op :: after ∧
    ∀ earlier ∈ before, earlier.1 = op.1 → earlier.2.fullName ≠ op.2.fullName

/-- The call set of the operation's name has an edge that the search cannot tell
from the one added. -/
def KeptIn (graph : CallGraph) (op : String × Edge) : Prop :=
  ∃ edge ∈ getCallSet graph op.1, edge.simpleName = op.2.simpleName ∧ edge.isExitPoint = op.2.isExitPoint

instance (graph : CallGraph) (op : String × Edge) : Decidable (KeptIn graph op) :=
  inferInstanceAs (Decidable (∃ edge ∈ getCallSet graph op.1, _))

/-- An operation is told apart by its name and the full name of its edge. -/
def operationKey (op : String × Edge) : String × String := (op.1, op.2.fullName)

theorem mem_addToCallSet (graph : CallGraph) (op : String × Edge) (name : String) (edge : Edge) :
    edge ∈ getCallSet (addToCallSet graph op.1 op.2) name ↔
      edge ∈ getCallSet graph name ∨
        ((name, edge) = op ∧ op.2.fullName ∉ (getCallSet graph op.1).map Edge.fullName) := by
  by_cases same : name = op.1
  · subst same
    have inserted : getCallSet (addToCallSet graph op.1 op.2) op.1 =
        KeyedSets.add Edge.fullName (getCallSet graph op.1) op.2 := by
      simp [getCallSet, addToCallSet]
    rw [inserted, KeyedSets.mem_add_iff]
    simp [Prod.ext_iff]
  · have untouched : getCallSet (addToCallSet graph op.1 op.2) name = getCallSet graph name := by
      simp [getCallSet, addToCallSet, AList.lookup_insert_ne same]
    rw [untouched]
    simp [Prod.ext_iff, same]

/-- All call sets together are one set of operations. -/
theorem mem_callSet_iff (graph : CallGraph) (set ops : List (String × Edge))
    (same : ∀ name edge, edge ∈ getCallSet graph name ↔ (name, edge) ∈ set) (name : String) (edge : Edge) :
    edge ∈ getCallSet (addOperations graph ops) name ↔ (name, edge) ∈ KeyedSets.addAll operationKey set ops := by
  induction ops generalizing graph set with
  | nil => exact same name edge
  | cons op ops ih =>
    refine ih (addToCallSet graph op.1 op.2) (KeyedSets.add operationKey set op) fun name edge => ?_
    rw [mem_addToCallSet, KeyedSets.mem_add_iff, same]
    have present : op.2.fullName ∈ (getCallSet graph op.1).map Edge.fullName ↔
        operationKey op ∈ set.map operationKey := by
      simp only [List.mem_map, same, operationKey, Prod.ext_iff]
      constructor
      · rintro ⟨old, member, full⟩
        exact ⟨(op.1, old), member, rfl, full⟩
      · rintro ⟨⟨_, old⟩, member, rfl, full⟩
        exact ⟨old, member, full⟩
    rw [present]

/-- The graph keeps exactly the first operation of each name and full name. -/
theorem mem_callSet_iff_first (ops : List (String × Edge)) (name : String) (edge : Edge) :
    edge ∈ getCallSet (addOperations ∅ ops) name ↔ IsFirst ops (name, edge) := by
  rw [mem_callSet_iff ∅ [] ops (by simp [getCallSet]), KeyedSets.mem_addAll_iff_first]
  simp only [List.not_mem_nil, false_or, IsFirst, List.map_nil, not_false_eq_true, true_and]
  refine exists_congr fun before => exists_congr fun after => and_congr Iff.rfl ?_
  simp only [List.mem_map, operationKey, Prod.ext_iff, not_exists, not_and]

/-- The edge of every operation is kept exactly when its simple name and exit
flag also come with a first operation under the same name. -/
theorem operations_kept_iff (files : List String) :
    (∀ op ∈ operations sources files, KeptIn (addFiles sources files) op) ↔
    ∀ op ∈ operations sources files, ∃ edge, IsFirst (operations sources files) (op.1, edge) ∧
      edge.simpleName = op.2.simpleName ∧ edge.isExitPoint = op.2.isExitPoint := by
  have kept (op : String × Edge) : KeptIn (addFiles sources files) op ↔ ∃ edge,
      IsFirst (operations sources files) (op.1, edge) ∧
      edge.simpleName = op.2.simpleName ∧ edge.isExitPoint = op.2.isExitPoint := by
    rw [addFiles_eq]
    exact exists_congr fun edge => and_congr (mem_callSet_iff_first _ op.1 edge) Iff.rfl
  exact forall₂_congr fun op _ => kept op

/-! ## Small sources

One file with one function at the top of some scopes, its calls and its text. -/

def sampleFunction (scopes : List Names) (name : String) : Node :=
  { kind := .functionDecl, spelling := name, displayname := name ++ "()", semanticParents := scopes }

def callOf (callee : Node) : Cursor :=
  .mk { kind := .callExpr, spelling := callee.spelling, displayname := callee.spelling } (some callee) {} []

def definitionOf (function : Node) (stop : ℕ) (calls : List Cursor) : Cursor :=
  .mk function none ⟨"f.cpp", 1, stop⟩
    [.mk { kind := .other "COMPOUND_STMT", spelling := "", displayname := "" } none ⟨"f.cpp", 1, stop⟩ calls]

def unitNames : Names := ⟨.translationUnit, "f.cpp", "f.cpp"⟩

def unitOf (cursors : List Cursor) : Cursor :=
  .mk { kind := .translationUnit, spelling := "f.cpp", displayname := "f.cpp" } none {} cursors

def sampleSources (root : Cursor) (text : List String) : Sources where
  parse file := if file = "f.cpp" then some root else none
  parseBare file := if file = "f.cpp" then some root else none
  lines file := if file = "f.cpp" then some text else none

/-- A function that calls itself and, where libclang does not see it, makes a
global reference. -/
def retaining : Sources :=
  let retain := sampleFunction [unitNames] "android_retain"
  sampleSources (unitOf [definitionOf retain 4 [callOf retain]])
    ["void android_retain() \x7b", "  android_retain();", "  env->NewGlobalRef(obj);", "\x7d"]

/-- The recursive call has the full name of the exit edge and comes first, so
the exit edge is dropped. -/
theorem retaining_not_kept :
    ¬ ∀ op ∈ operations retaining ["f.cpp"], KeptIn (addFiles retaining ["f.cpp"]) op := by
  decide +kernel

end JgreAnalysis.NativeCallGraph
