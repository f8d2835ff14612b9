import JgreAnalysis.CompileCommands
import JgreAnalysis.NativeChainSearch
import JgreAnalysis.NativeDefinitions
import JgreAnalysis.NativeEntryPoints

/-! The whole native run, from the command line to the chains that are saved. The
compile information is read while the modules are imported, before the options
are. -/
namespace JgreAnalysis.NativeMain
open FileNames SootModel ClangCursor NativeCallGraph NativeRecording NativeDefinitions NativeChainSearch NativeEntryPoints
open CompileCommands

/-- The fields of `Conf` that an option can set. -/
structure Conf where
  defaultAospPath : String
  compileDbFile : Option String
  deriving DecidableEq, Repr

/-- `Conf` before the options are read. -/
def Conf.initial : Conf := ⟨"F:\\Android_9.0\\aosp", none⟩

/-- `framework_core_jni_path`, where the separator of the system is a slash. -/
def Conf.frameworkCoreJniPath (conf : Conf) : String :=
  String.ofList ((aospFile conf.defaultAospPath "frameworks\\base\\core\\jni").toList.map
    fun c : Char => if c = '\\' then '/' else c)

def testFile : String := "frameworks\\base\\core\\jni\\android_util_Binder.cpp"

def resultsTxt : String := "data/results.txt"

/-- The arguments of `-p` and `-c`. -/
structure Options where
  source : Option String
  db : Option String
  deriving DecidableEq, Repr

inductive MainProblem where
  | usage
  | directoryMissing
  | extract (problem : ExtractProblem)
  | recursionError (problem : RecursionError)
  | resultsNotOpened
  deriving DecidableEq, Repr

/-- Without a source the help is printed and nothing else happens. -/
def initArgParser (options : Options) : Except MainProblem Conf :=
  match options.source with
  | none => throw .usage
  | some source => if source = "" then throw .usage else pure ⟨source, options.db⟩

/-- What the run meets: the files of the disk, what libclang makes of a file with
some flags, the lines of the files, the names in a directory, and the files that
can be opened for writing. The binding of libclang knows some kinds of cursors,
and `stops` tells after how many edges the walk of a file meets another kind. -/
structure Machine where
  disk : Disk
  clang : String → List String → Option Cursor
  knows : CursorKind → Bool
  stops : String → List String → Option ℕ
  lines : String → Option (List String)
  listdir : String → Option (List FileName)
  opens : String → Bool

variable (machine : Machine)

/-- The files as they are parsed while no headers are added. -/
def Machine.sources (info : CompileInfo) : Sources where
  parse file := machine.clang file (info.getCommandsForFile file).argv
  parseBare file := machine.clang file []
  lines := machine.lines

/-- The call graph, and the compile information that it shares with others. -/
structure Gathering where
  compileCommands : CompileInfo
  graph : CallGraph

/-- `CallGraph.add_file` with its headers. The exception at a kind that the binding
does not know leaves the edges recorded before. -/
def addFileWith (g : Gathering) (filePath : String) (headers : List String) : Gathering :=
  let (args, info) := g.compileCommands.request ⟨filePath, headers⟩
  match args.bind (machine.clang filePath) with
  | none => ⟨info, g.graph⟩
  | some root =>
    match args.bind (machine.stops filePath) with
    | none => ⟨info, ((getEntryMethodNode (machine.sources info) root).run g.graph).2⟩
    | some edges => ⟨info, addOperations g.graph ((performed (unitEvents (machine.sources info) root)).take edges)⟩

/-- A path that is no text cannot be handed to libclang. -/
def addCpp (g : Gathering) (cpp : FileName) : Gathering :=
  match encode cpp with
  | none => g
  | some file => addFileWith machine g file []

/-- The files that `process_jni_dir` looks at. -/
def cppFilesIn (workDir : String) (allFiles : List FileName) : List FileName :=
  (allFiles.filter (endsIn · (.of "cpp"))).map (join (.of workDir))

variable (order : HashOrder Edge) (entryOrder : HashOrder String) (limit : ℕ)

def processJniDirOf (info : CompileInfo) (workDir binderFile : String) : Except MainProblem (CallChains × String) := do
  let allFiles ← (machine.listdir workDir).elim (throw .directoryMissing) pure
  let cppFiles := cppFilesIn workDir allFiles
  let gathered := cppFiles.foldl (addCpp machine) ⟨info, ∅⟩
  let entryPoints ← (entryPointsOf (machine.sources info) machine.knows cppFiles).mapError .extract
  let gathered := addFileWith machine gathered binderFile []
  let results ← (runAnalysis gathered.graph order limit (entryOrder.arrange entryPoints)).mapError .recursionError
  if machine.opens resultsTxt then pure results else throw .resultsNotOpened

/-- A run, with the chains that it finds and the text that it saves. -/
def main (options : Options) : Except MainProblem (CallChains × String) := do
  let compileCommands := CompileInfo.load machine.disk Conf.initial.defaultAospPath Conf.initial.compileDbFile
  let conf ← initArgParser options
  processJniDirOf machine order entryOrder limit compileCommands conf.frameworkCoreJniPath
    (aospFile conf.defaultAospPath testFile)

/-! ## What a run looks at -/

/-- The compile information of every run. -/
def Machine.imported : CompileInfo :=
  CompileInfo.load machine.disk Conf.initial.defaultAospPath Conf.initial.compileDbFile

/-- The paths of the files that a run over a source tree looks for entry points. -/
def entryPaths (source : String) (allFiles : List FileName) : List FileName :=
  cppFilesIn (Conf.frameworkCoreJniPath ⟨source, none⟩) allFiles

/-- Those of them that libclang can be given. -/
def entryFiles (source : String) (allFiles : List FileName) : List String := (entryPaths source allFiles).filterMap encode

/-- The files whose calls a run records. -/
def recordedFiles (source : String) (allFiles : List FileName) : List String :=
  entryFiles source allFiles ++ [aospFile source testFile]

/-- What a run records for a file. -/
def Machine.recordedOf (info : CompileInfo) (file : String) : List (String × Edge) :=
  let recorded := fileOperations (machine.sources info) file
  (machine.stops file (info.getCommandsForFile file).argv).elim recorded recorded.take

def graphOf (source : String) (allFiles : List FileName) : CallGraph :=
  addOperations ∅ ((recordedFiles source allFiles).flatMap (machine.recordedOf machine.imported))

/-- A function with the name of a native method stands in one of the files. -/
def IsEntryPoint (files : List String) (name : String) : Prop :=
  ∃ cpp ∈ files, ∃ root, machine.clang cpp [] = some root ∧
    ∃ f, Below f root ∧ f.kind = .functionDecl ∧ startsWith f.spelling "android_" = true ∧ f.spelling = name

/-- In one of the files, a visited definition of the caller's name has a step to
the full name of the edge. -/
def CalledFrom (files : List String) (caller : String) (edge : Edge) : Prop :=
  ∃ file ∈ files, ∃ root, (machine.sources machine.imported).parse file = some root ∧
    Reaches (machine.sources machine.imported) root caller edge.fullName

/-- Every edge is called from the name before it. -/
def SourceChain (files : List String) : String → List Edge → Prop
  | _, [] => True
  | caller, edge :: rest => CalledFrom machine files caller edge ∧ SourceChain files edge.simpleName rest

/-- The file gives libclang's tree of this root without flags, with cursors of
known kinds. -/
def ParsesBare (cpp : FileName) (root : Cursor) : Prop :=
  ∃ file, cpp = .of file ∧ machine.clang file [] = some root ∧ ∀ c, Below c root → machine.knows c.kind = true

variable {machine order entryOrder limit}

theorem addOperations_append (graph : CallGraph) (first rest : List (String × Edge)) :
    addOperations graph (first ++ rest) = addOperations (addOperations graph first) rest := List.foldl_append

/-- Without headers a file is added with the flags that were loaded for it, and
the compile information stays. -/
theorem addFileWith_bare (g : Gathering) (filePath : String) : addFileWith machine g filePath [] =
    ⟨g.compileCommands, addOperations g.graph (machine.recordedOf g.compileCommands filePath)⟩ := by
  unfold addFileWith Machine.recordedOf fileOperations
  simp only [CompileInfo.request, if_true, Option.bind_some, Machine.sources]
  cases machine.clang filePath (g.compileCommands.getCommandsForFile filePath).argv with
  | none => cases machine.stops filePath (g.compileCommands.getCommandsForFile filePath).argv <;> simp [addOperations]
  | some root =>
    cases machine.stops filePath (g.compileCommands.getCommandsForFile filePath).argv with
    | none => simp only [Option.elim_none, getEntryMethodNode_eq, replay_graph]
    | some edges => rfl

theorem addCpp_eq (g : Gathering) (cpp : FileName) : addCpp machine g cpp =
    ⟨g.compileCommands, addOperations g.graph ((encode cpp).toList.flatMap (machine.recordedOf g.compileCommands))⟩ := by
  unfold addCpp
  cases encode cpp with
  | none => rfl
  | some file => simp only [addFileWith_bare, Option.toList_some, List.flatMap_singleton]

theorem foldl_addCpp (files : List FileName) (g : Gathering) : files.foldl (addCpp machine) g =
    ⟨g.compileCommands, addOperations g.graph ((files.filterMap encode).flatMap (machine.recordedOf g.compileCommands))⟩ := by
  induction files generalizing g with
  | nil => rfl
  | cons cpp files ih =>
    rw [List.foldl_cons, ih, addCpp_eq, ← addOperations_append, ← List.flatMap_append]
    cases read : encode cpp <;> simp [read]

theorem entryPoint?_eq (f : Cursor) (name : String) :
    entryPoint? f = some name ↔ startsWith f.spelling "android_" = true ∧ f.spelling = name := by
  simp [entryPoint?, jniMethods]

theorem extracts_iff (info : CompileInfo) (cpp : FileName) (root : Cursor) :
    Extracts (machine.sources info) machine.knows cpp root ↔ ParsesBare machine cpp root := by
  simp only [Extracts, ParsesBare, Option.bind_eq_some_iff, encode_eq_some, Machine.sources]
  constructor
  · rintro ⟨⟨file, same, parsed⟩, known⟩
    exact ⟨file, same, parsed, known⟩
  · rintro ⟨file, same, parsed, known⟩
    exact ⟨⟨file, same, parsed⟩, known⟩

theorem mem_entryPointsOf_iff (found : entryPointsOf (machine.sources info) machine.knows cppFiles = .ok entryPoints)
    (name : String) : name ∈ entryPoints ↔ IsEntryPoint machine (cppFiles.filterMap encode) name := by
  have extracted := entryPointsOf_ok_iff cppFiles |>.mp ⟨_, found⟩
  simp only [mem_entryPointsOf found, entryPoint?_eq, extracts_iff] at extracted ⊢
  simp only [IsEntryPoint, List.mem_filterMap, encode_eq_some]
  constructor
  · rintro ⟨_, member, root, ⟨file, rfl, parsed, _⟩, function⟩
    exact ⟨file, ⟨_, member, rfl⟩, root, parsed, function⟩
  · rintro ⟨file, ⟨_, member, rfl⟩, root, parsed, function⟩
    obtain ⟨other, another, same, again, known⟩ := extracted _ member
    obtain rfl := of_injective same
    obtain rfl := Option.some.inj (parsed.symm.trans again)
    exact ⟨_, member, root, ⟨file, rfl, parsed, known⟩, function⟩

theorem gathered_graph (info : CompileInfo) (cppFiles : List FileName) (binderFile : String) :
    (addFileWith machine (cppFiles.foldl (addCpp machine) ⟨info, ∅⟩) binderFile []).graph =
      addOperations ∅ ((cppFiles.filterMap encode ++ [binderFile]).flatMap (machine.recordedOf info)) := by
  rw [foldl_addCpp, addFileWith_bare, List.flatMap_append, addOperations_append, List.flatMap_singleton]

theorem processJniDirOf_ok_iff (info : CompileInfo) (workDir binderFile : String) (reply : CallChains × String) :
    processJniDirOf machine order entryOrder limit info workDir binderFile = .ok reply ↔
      ∃ allFiles entryPoints, machine.listdir workDir = some allFiles ∧
        entryPointsOf (machine.sources info) machine.knows (cppFilesIn workDir allFiles) = .ok entryPoints ∧
        runAnalysis (addOperations ∅
          (((cppFilesIn workDir allFiles).filterMap encode ++ [binderFile]).flatMap (machine.recordedOf info))) order limit
          (entryOrder.arrange entryPoints) = .ok reply ∧ machine.opens resultsTxt = true := by
  unfold processJniDirOf
  cases listed : machine.listdir workDir with
  | none =>
    simp only [Option.elim_none, reduceCtorEq, false_and, exists_false, iff_false]
    intro ran
    cases ran
  | some allFiles =>
    simp only [Option.elim_some, pure_bind, gathered_graph, LoopLaws.bind_ok, LoopLaws.mapError_ok, Option.some.injEq,
      exists_and_left, exists_eq_left']
    refine exists_congr fun entryPoints => and_congr_right fun _ => ?_
    by_cases opened : machine.opens resultsTxt = true
    · simp [opened, pure, Except.pure]
    · simp [opened, throw, throwThe, MonadExceptOf.throw]

theorem initArgParser_ok_iff (options : Options) (conf : Conf) : initArgParser options = .ok conf ↔
    options.source = some conf.defaultAospPath ∧ conf.defaultAospPath ≠ "" ∧ conf.compileDbFile = options.db := by
  unfold initArgParser
  obtain ⟨source, db⟩ := options
  obtain ⟨path, file⟩ := conf
  cases source with
  | none => simp [throw, throwThe, MonadExceptOf.throw]
  | some source =>
    by_cases empty : source = ""
    · subst empty
      simp only [if_true, throw, throwThe, MonadExceptOf.throw, reduceCtorEq, false_iff]
      rintro ⟨same, filled, _⟩
      exact filled (Option.some.inj same).symm
    · simp only [empty, if_false, pure, Except.pure, Except.ok.injEq, Conf.mk.injEq, Option.some.injEq]
      constructor
      · rintro ⟨rfl, rfl⟩
        exact ⟨rfl, empty, rfl⟩
      · rintro ⟨rfl, _, rfl⟩
        exact ⟨rfl, rfl⟩

/-- A run that ends searches the graph of its files from their entry points, and
saves what it finds. -/
theorem main_ok_iff (options : Options) (reply : CallChains × String) :
    main machine order entryOrder limit options = .ok reply ↔
      ∃ source allFiles entryPoints, options.source = some source ∧ source ≠ "" ∧
        machine.listdir (Conf.frameworkCoreJniPath ⟨source, none⟩) = some allFiles ∧
        entryPointsOf (machine.sources machine.imported) machine.knows (entryPaths source allFiles) = .ok entryPoints ∧
        runAnalysis (graphOf machine source allFiles) order limit (entryOrder.arrange entryPoints) = .ok reply ∧
        machine.opens resultsTxt = true := by
  unfold main
  rw [LoopLaws.bind_ok]
  simp only [initArgParser_ok_iff, processJniDirOf_ok_iff]
  constructor
  · rintro ⟨conf, ⟨given, filled, _⟩, allFiles, entryPoints, listed, found, ran⟩
    exact ⟨conf.defaultAospPath, allFiles, entryPoints, given, filled, listed, found, ran⟩
  · rintro ⟨source, allFiles, entryPoints, given, filled, listed, found, ran⟩
    exact ⟨⟨source, options.db⟩, ⟨given, filled, rfl⟩, allFiles, entryPoints, listed, found, ran⟩

/-! ## The end of a run and its chains -/

theorem recordedOf_subset (info : CompileInfo) (file : String) :
    machine.recordedOf info file ⊆ fileOperations (machine.sources info) file := by
  unfold Machine.recordedOf
  cases machine.stops file (info.getCommandsForFile file).argv with
  | none => exact List.Subset.refl _
  | some edges => exact List.take_subset edges _

theorem calledFrom_of_recorded (recorded : edge ∈ getCallSet (graphOf machine source allFiles) caller) :
    CalledFrom machine (recordedFiles source allFiles) caller edge := by
  have named : edge.fullName ∈ fullNames (graphOf machine source allFiles) caller := List.mem_map_of_mem recorded
  rw [graphOf, fullName_recorded, or_iff_right (by simp [fullNames, getCallSet])] at named
  obtain ⟨other, added, same⟩ := named
  obtain ⟨file, member, within⟩ := List.mem_flatMap.mp added
  have operation := recordedOf_subset machine.imported file within
  cases parsed : (machine.sources machine.imported).parse file with
  | none => simp [fileOperations, parsed] at operation
  | some root => exact ⟨file, member, root, parsed, (fileOperations_iff parsed caller _).mp ⟨other, operation, same⟩⟩

theorem sourceChain_of_edgeChain (path : List Edge) (chain : EdgeChain (graphOf machine source allFiles) start path) :
    SourceChain machine (recordedFiles source allFiles) start path := by
  induction path generalizing start with
  | nil => trivial
  | cons edge path ih =>
    obtain ⟨recorded, empty | rest⟩ := (edgeChain_cons edge path).mp chain
    · subst empty
      exact ⟨calledFrom_of_recorded recorded, trivial⟩
    · exact ⟨calledFrom_of_recorded recorded, ih rest⟩

/-- The chains of a run start at exactly the entry points that reach an exit.
Each goes down calls of the files' visited definitions, edge by edge, to an
exit. -/
theorem main_chains (ran : main machine order entryOrder limit options = .ok (chains, text)) :
    ∃ source allFiles, options.source = some source ∧
      machine.listdir (Conf.frameworkCoreJniPath ⟨source, none⟩) = some allFiles ∧
      (∀ name, name ∈ chains ↔ IsEntryPoint machine (entryFiles source allFiles) name ∧
        ExitReachable (graphOf machine source allFiles) name) ∧
      ∀ name path, chains.lookup name = some path →
        SourceChain machine (recordedFiles source allFiles) name path ∧ ∃ last, path.getLast? = some last ∧ IsExit last := by
  obtain ⟨source, allFiles, entryPoints, given, _, listed, found, searched, _⟩ := (main_ok_iff options _).mp ran
  obtain ⟨keys, walks⟩ := chain_of_walk _ searched
  refine ⟨source, allFiles, given, listed, fun name => ?_, fun name path bound => ?_⟩
  · rw [keys, entryOrder.mem_arrange, mem_entryPointsOf_iff found]
    rfl
  · obtain ⟨chain, exit⟩ := walk_found (walks name path bound)
    exact ⟨sourceChain_of_edgeChain path chain, exit⟩

/-- A source tree with one file, where a native method makes a global reference. -/
def retainingTree : Machine where
  disk := ⟨fun _ => false, fun _ => none⟩
  clang _ _ := some (unitOf [definitionOf (sampleFunction [unitNames] "android_retain") 3 []])
  knows _ := true
  stops _ _ := none
  lines _ := some ["void android_retain() \x7b", "  env->NewGlobalRef(obj);", "\x7d"]
  listdir path := if path = "aosp/frameworks/base/core/jni" then some [.of "Retain.cpp", .of "Retain.h"] else none
  opens _ := true

theorem retainingTree_saved : (main retainingTree insertionOrder insertionOrder 3 ⟨some "aosp", none⟩).map (·.2) =
    .ok "android_retain: android_retain -> _JNIEnv::NewGlobalRef" := by
  decide +kernel

theorem main_chains_retainingTree : ∃ chains text,
    main retainingTree insertionOrder insertionOrder 3 ⟨some "aosp", none⟩ = .ok (chains, text) ∧
    ∃ source allFiles, some "aosp" = some source ∧
      retainingTree.listdir (Conf.frameworkCoreJniPath ⟨source, none⟩) = some allFiles ∧
      (∀ name, name ∈ chains ↔ IsEntryPoint retainingTree (entryFiles source allFiles) name ∧
        ExitReachable (graphOf retainingTree source allFiles) name) ∧
      ∀ name path, chains.lookup name = some path →
        SourceChain retainingTree (recordedFiles source allFiles) name path ∧
          ∃ last, path.getLast? = some last ∧ IsExit last := by
  cases ran : main retainingTree insertionOrder insertionOrder 3 ⟨some "aosp", none⟩ with
  | error problem =>
    have saved := retainingTree_saved
    rw [ran] at saved
    cases saved
  | ok reply => exact ⟨reply.1, reply.2, rfl, main_chains ran⟩

end JgreAnalysis.NativeMain
