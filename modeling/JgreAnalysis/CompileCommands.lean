import JgreAnalysis.FileNames
import JgreAnalysis.LastBindings

/-! The flags that files are parsed with. A database gives some files a command,
all others share one list of default flags. The list is handed out itself, and
a parser that adds its headers to it adds them for everyone. -/
namespace JgreAnalysis.CompileCommands
open FileNames LastBindings

def defaultIncludes : List String := [
  "prebuilts\\ndk\\current\\platforms\\android-14\\arch-arm\\usr\\include\\",
  "frameworks\\native\\include",
  "system\\core\\include"]

/-- What a database has for a file: one text, or a list of arguments. -/
inductive Command where
  | text (command : String)
  | arguments (args : List String)
  deriving DecidableEq, Repr

/-- What libclang makes of `args`: it takes the items one by one, and those of a
text are its characters. -/
def Command.argv : Command → List String
  | .text command => command.toList.map String.singleton
  | .arguments args => args

/-- One item of a database, with what it has under `file` and `command`. -/
structure DbItem where
  file : Option String
  command : Option Command
  deriving DecidableEq, Repr

/-- The item has both. -/
def DbItem.Complete (item : DbItem) : Prop := item.file.isSome ∧ item.command.isSome

/-- The paths that exist, and the items of those that `load_json` reads. -/
structure Disk where
  isPresent : String → Bool
  loadJson : String → Option (List DbItem)

structure CompileInfo where
  dbPath : String
  headerMap : Bindings String Command
  defaultConf : List String

/-- `"-I{}".format`. -/
def includeFlag (header : String) : String := "-I" ++ header

/-- `aosp_file` of a configuration with that path. -/
def aospFile (aospPath rel : String) : String := joinText aospPath rel

def getDefaultCommands (aospPath : String) : List String :=
  defaultIncludes.map fun header => includeFlag (aospFile aospPath header)

def compileCommandsJson : String := "compile_commands.json"

/-- A directory stands for the database in it. -/
def resolveDb (disk : Disk) (dbPath : String) : String :=
  if disk.isPresent (joinText dbPath compileCommandsJson) then joinText dbPath compileCommandsJson else dbPath

/-- The loop over the items. One without a file or a command ends it, and leaves
the commands read before. -/
def loadItems (headerMap : Bindings String Command) : List DbItem → Bindings String Command
  | [] => headerMap
  | item :: data =>
    match item.file, item.command with
    | some fi, some cmd => loadItems (headerMap.insert fi cmd) data
    | _, _ => headerMap

/-- `__init__` with `__load_db`, whose path may be missing. -/
def CompileInfo.load (disk : Disk) (aospPath : String) (db : Option String) : CompileInfo where
  dbPath := resolveDb disk (db.getD "")
  headerMap := loadItems ∅ ((disk.loadJson (resolveDb disk (db.getD ""))).getD [])
  defaultConf := getDefaultCommands aospPath

def CompileInfo.getCommandsForFile (info : CompileInfo) (fi : String) : Command :=
  (info.headerMap.lookup fi).getD (.arguments info.defaultConf)

/-- The exception of a text that is to be extended by a list. -/
structure TypeError where
  deriving DecidableEq, Repr

/-- `args += [...]` on what was handed out for a file. A list grows in place. -/
def CompileInfo.extendArgs (info : CompileInfo) (fi : String) (more : List String) : Except TypeError CompileInfo :=
  match info.headerMap.lookup fi with
  | none => .ok { info with defaultConf := info.defaultConf ++ more }
  | some (.arguments args) => .ok { info with headerMap := info.headerMap.insert fi (.arguments (args ++ more)) }
  | some (.text _) => .error ⟨⟩

/-- A file that is to be parsed, by `add_file` with its headers or by the parser
of JNI tables without any. -/
structure Request where
  file : String
  headers : List String
  deriving DecidableEq, Repr

/-- The flags that come with the parse of a request, if it gets that far. -/
def CompileInfo.request (info : CompileInfo) (q : Request) : Option (List String) × CompileInfo :=
  if q.headers = [] then (some (info.getCommandsForFile q.file).argv, info)
  else
    match info.extendArgs q.file (q.headers.map includeFlag) with
    | .ok info => (some (info.getCommandsForFile q.file).argv, info)
    | .error _ => (none, info)

/-- The flags of several requests, one after the other. -/
def CompileInfo.answers (info : CompileInfo) : List Request → List (Option (List String))
  | [] => []
  | q :: requests => (info.request q).1 :: (info.request q).2.answers requests

def CompileInfo.after (info : CompileInfo) (requests : List Request) : CompileInfo :=
  requests.foldl (fun info q => (info.request q).2) info

/-! ## What the database gives -/

/-- The items that the loop comes to: those before the first without a file or a
command. -/
def readItems : List DbItem → List (String × Command)
  | [] => []
  | item :: data =>
    match item.file, item.command with
    | some fi, some cmd => (fi, cmd) :: readItems data
    | _, _ => []

theorem loadItems_eq (headerMap : Bindings String Command) (data : List DbItem) :
    loadItems headerMap data = assignAll headerMap (readItems data) := by
  induction data generalizing headerMap with
  | nil => rfl
  | cons item data ih =>
    obtain ⟨file, command⟩ := item
    cases file with
    | none => rfl
    | some fi =>
      cases command with
      | none => rfl
      | some cmd => exact ih _

theorem readItems_append (before rest : List DbItem) (complete : ∀ item ∈ before, item.Complete) :
    readItems (before ++ rest) = readItems before ++ readItems rest := by
  induction before with
  | nil => rfl
  | cons item before ih =>
    obtain ⟨⟨file, command⟩, others⟩ := List.forall_mem_cons.mp complete
    obtain ⟨fi, named⟩ := Option.isSome_iff_exists.mp file
    obtain ⟨cmd, given⟩ := Option.isSome_iff_exists.mp command
    simp [readItems, named, given, ih others]

/-- A binding that is read comes from an item with only complete ones before it. -/
theorem readItems_split (data : List DbItem) (reads : readItems data = first ++ (fi, cmd) :: later) :
    ∃ before after, data = before ++ ⟨some fi, some cmd⟩ :: after ∧ (∀ item ∈ before, item.Complete) ∧
      readItems after = later := by
  induction data generalizing first with
  | nil => simp [readItems] at reads
  | cons item data ih =>
    obtain ⟨file, command⟩ := item
    cases file with
    | none => simp [readItems] at reads
    | some own =>
      cases command with
      | none => simp [readItems] at reads
      | some given =>
        rw [readItems] at reads
        cases first with
        | nil =>
          obtain ⟨same, rest⟩ := List.cons.inj reads
          cases same
          exact ⟨[], data, rfl, by simp, rest⟩
        | cons pair first =>
          obtain ⟨before, after, rfl, complete, rest⟩ := ih (List.cons.inj reads).2
          exact ⟨_ :: before, after, rfl, List.forall_mem_cons.mpr ⟨⟨rfl, rfl⟩, complete⟩, rest⟩

theorem isLast_readItems_iff (data : List DbItem) (fi : String) (cmd : Command) :
    IsLast (readItems data) fi cmd ↔ ∃ before after, data = before ++ ⟨some fi, some cmd⟩ :: after ∧
      (∀ item ∈ before, item.Complete) ∧
      ∀ between other rest, after = between ++ ⟨some fi, some other⟩ :: rest → ∃ item ∈ between, ¬ item.Complete := by
  constructor
  · rintro ⟨first, later, reads, last⟩
    obtain ⟨before, after, rfl, complete, rfl⟩ := readItems_split data reads
    refine ⟨before, after, rfl, complete, ?_⟩
    rintro between other rest rfl
    by_contra all
    push Not at all
    refine last (fi, other) ?_ rfl
    rw [readItems_append between _ all]
    simp [readItems]
  · rintro ⟨before, after, rfl, complete, last⟩
    refine ⟨readItems before, readItems after, readItems_append before _ complete, ?_⟩
    rintro ⟨name, other⟩ member rfl
    obtain ⟨first, later, reads⟩ := List.append_of_mem member
    obtain ⟨between, rest, split, all, _⟩ := readItems_split after reads
    obtain ⟨item, within, broken⟩ := last between other rest split
    exact broken (all item within)

/-- The database is the file in the given directory if there is one. A file has
the command of the last item for it that only complete items come before. -/
theorem database_command_iff (disk : Disk) (aospPath : String) (db : Option String) (fi : String) (cmd : Command) :
    (CompileInfo.load disk aospPath db).headerMap.lookup fi = some cmd ↔
      ∃ data before after, disk.loadJson (resolveDb disk (db.getD "")) = some data ∧
        data = before ++ ⟨some fi, some cmd⟩ :: after ∧ (∀ item ∈ before, item.Complete) ∧
        ∀ between other rest, after = between ++ ⟨some fi, some other⟩ :: rest → ∃ item ∈ between, ¬ item.Complete := by
  rw [CompileInfo.load, loadItems_eq, lookup_assignAll, or_iff_left (by simp), isLast_readItems_iff]
  cases disk.loadJson (resolveDb disk (db.getD "")) <;> simp

/-! ## The lists that are shared -/

/-- The files are handed the same list. -/
def Shares (info : CompileInfo) (fi other : String) : Prop :=
  fi = other ∨ (fi ∉ info.headerMap ∧ other ∉ info.headerMap)

instance (info : CompileInfo) (fi other : String) : Decidable (Shares info fi other) :=
  inferInstanceAs (Decidable (_ ∨ _))

/-- The file is handed a text. -/
def IsText (info : CompileInfo) (fi : String) : Prop := ∃ command, info.getCommandsForFile fi = .text command

/-- The headers that some requests add to the list of a file. -/
def addedHeaders (info : CompileInfo) (fi : String) (requests : List Request) : List String :=
  requests.flatMap fun q => if Shares info fi q.file then q.headers else []

/-- A list with some headers behind it. A text stays as it is. -/
def Command.extended (headers : List String) : Command → Command
  | .text command => .text command
  | .arguments args => .arguments (args ++ headers.map includeFlag)

/-- The flags of a request after others: a text takes no headers, and a list has
those of all requests up to this one. -/
def flagsAfter (info : CompileInfo) (before : List Request) (q : Request) : Option (List String) :=
  match info.getCommandsForFile q.file with
  | .text command => if q.headers = [] then some (Command.text command).argv else none
  | .arguments args => some (args ++ (addedHeaders info q.file (before ++ [q])).map includeFlag)

theorem Command.extended_nil (command : Command) : command.extended [] = command := by
  cases command <;> simp [Command.extended]

theorem Command.extended_append (first rest : List String) (command : Command) :
    (command.extended first).extended rest = command.extended (first ++ rest) := by
  cases command <;> simp [Command.extended]

theorem getCommands_of_notMem {info : CompileInfo} (other : fi ∉ info.headerMap) :
    info.getCommandsForFile fi = .arguments info.defaultConf := by
  rw [CompileInfo.getCommandsForFile, AList.lookup_eq_none.mpr other]
  rfl

theorem getCommands_of_lookup {info : CompileInfo} (known : info.headerMap.lookup fi = some command) :
    info.getCommandsForFile fi = command := by
  rw [CompileInfo.getCommandsForFile, known]
  rfl

/-- A request leaves the files of the database as they are, and changes what it
was handed for its own file only. -/
theorem request_after (info : CompileInfo) (q : Request) (fi : String) :
    (fi ∈ (info.request q).2.headerMap ↔ fi ∈ info.headerMap) ∧
    (info.request q).2.getCommandsForFile fi =
      (info.getCommandsForFile fi).extended (if Shares info fi q.file then q.headers else []) := by
  unfold CompileInfo.request CompileInfo.extendArgs
  by_cases bare : q.headers = []
  · simp [bare, Command.extended_nil]
  rw [if_neg bare]
  cases known : info.headerMap.lookup q.file with
  | none =>
    have outside : q.file ∉ info.headerMap := AList.lookup_eq_none.mp known
    refine ⟨Iff.rfl, ?_⟩
    by_cases member : fi ∈ info.headerMap
    · have apart : ¬ Shares info fi q.file := by
        rintro (rfl | ⟨missing, _⟩)
        · exact outside member
        · exact missing member
      obtain ⟨command, found⟩ := Option.isSome_iff_exists.mp (AList.lookup_isSome.mpr member)
      rw [if_neg apart, Command.extended_nil, getCommands_of_lookup found]
      exact getCommands_of_lookup found
    · rw [if_pos (.inr ⟨member, outside⟩), getCommands_of_notMem member, getCommands_of_notMem (by exact member)]
      rfl
  | some command =>
    have inside : q.file ∈ info.headerMap := AList.lookup_isSome.mp (by simp [known])
    have shared : Shares info fi q.file ↔ fi = q.file := by simp [Shares, inside]
    cases command with
    | text command =>
      refine ⟨Iff.rfl, ?_⟩
      by_cases own : fi = q.file
      · rw [own, getCommands_of_lookup known]
        rfl
      · rw [if_neg (shared.not.mpr own), Command.extended_nil]
    | arguments args =>
      by_cases own : fi = q.file
      · subst own
        rw [if_pos (shared.mpr rfl), getCommands_of_lookup known]
        exact ⟨by simp [inside], getCommands_of_lookup (AList.lookup_insert _)⟩
      · rw [if_neg (shared.not.mpr own), Command.extended_nil]
        refine ⟨by simp [own], ?_⟩
        simp [CompileInfo.getCommandsForFile, AList.lookup_insert_ne own]

/-- A list is extended by the flags, and a text is not. -/
theorem extendArgs_cases (info : CompileInfo) (fi : String) (more : List String) :
    (∃ args next, info.getCommandsForFile fi = .arguments args ∧ info.extendArgs fi more = .ok next ∧
      next.getCommandsForFile fi = .arguments (args ++ more)) ∨
    ∃ command, info.getCommandsForFile fi = .text command ∧ info.extendArgs fi more = .error ⟨⟩ := by
  unfold CompileInfo.extendArgs
  cases known : info.headerMap.lookup fi with
  | none =>
    have outside : fi ∉ info.headerMap := AList.lookup_eq_none.mp known
    exact .inl ⟨info.defaultConf, _, getCommands_of_notMem outside, rfl, getCommands_of_notMem (by exact outside)⟩
  | some command =>
    cases command with
    | text command => exact .inr ⟨command, getCommands_of_lookup known, rfl⟩
    | arguments args =>
      exact .inl ⟨args, _, getCommands_of_lookup known, rfl, getCommands_of_lookup (AList.lookup_insert info.headerMap)⟩

/-- The flags of a request are what its file was handed, with its own headers. -/
theorem request_answer (info : CompileInfo) (q : Request) : (info.request q).1 = flagsAfter info [] q := by
  have own : addedHeaders info q.file ([] ++ [q]) = q.headers := by simp [addedHeaders, Shares]
  rw [flagsAfter, own]
  unfold CompileInfo.request
  by_cases bare : q.headers = []
  · rw [if_pos bare]
    cases handed : info.getCommandsForFile q.file <;> simp [bare, Command.argv]
  rw [if_neg bare]
  rcases extendArgs_cases info q.file (q.headers.map includeFlag) with
    ⟨args, next, handed, extended, grown⟩ | ⟨command, handed, failed⟩
  · simp [handed, extended, grown, Command.argv]
  · simp [handed, failed, bare]

/-- After some requests a file is handed its list with the headers they added. -/
theorem after_requests (info : CompileInfo) (requests : List Request) (fi : String) :
    (fi ∈ (info.after requests).headerMap ↔ fi ∈ info.headerMap) ∧
    (info.after requests).getCommandsForFile fi =
      (info.getCommandsForFile fi).extended (addedHeaders info fi requests) := by
  induction requests generalizing info with
  | nil => exact ⟨Iff.rfl, (Command.extended_nil _).symm⟩
  | cons q requests ih =>
    have step := request_after info q
    obtain ⟨keys, handed⟩ := ih (info.request q).2
    have shares (other : String) : Shares (info.request q).2 fi other ↔ Shares info fi other := by
      simp [Shares, step]
    refine ⟨keys.trans (step fi).1, ?_⟩
    rw [CompileInfo.after, List.foldl_cons, ← CompileInfo.after, handed, (step fi).2, Command.extended_append]
    simp [addedHeaders, shares]

theorem flagsAfter_append (info : CompileInfo) (first rest : List Request) (q : Request) :
    flagsAfter (info.after first) rest q = flagsAfter info (first ++ rest) q := by
  have shares (other : String) : Shares (info.after first) q.file other ↔ Shares info q.file other := by
    simp [Shares, after_requests]
  have added (requests : List Request) :
      addedHeaders (info.after first) q.file requests = addedHeaders info q.file requests := by
    simp [addedHeaders, shares]
  rw [flagsAfter, flagsAfter, (after_requests info first q.file).2, added, List.append_assoc]
  cases info.getCommandsForFile q.file with
  | text command => rfl
  | arguments args => simp [Command.extended, addedHeaders]

theorem answers_append (info : CompileInfo) (first rest : List Request) :
    info.answers (first ++ rest) = info.answers first ++ (info.after first).answers rest := by
  induction first generalizing info with
  | nil => rfl
  | cons q first ih => exact congrArg _ (ih (info.request q).2)

theorem answers_length (info : CompileInfo) (requests : List Request) : (info.answers requests).length = requests.length := by
  induction requests generalizing info with
  | nil => rfl
  | cons q requests ih => exact congrArg (· + 1) (ih (info.request q).2)

/-- Every request of a run is passed what was loaded for its file, with all
headers behind it that this and the requests before gave for files of the same
list. -/
theorem flags_of_run (info : CompileInfo) (before after : List Request) (q : Request) :
    (info.answers (before ++ q :: after))[before.length]? = some (flagsAfter info before q) := by
  rw [answers_append, List.getElem?_append_right (by rw [answers_length])]
  simp only [answers_length, Nat.sub_self, CompileInfo.answers, List.getElem?_cons_zero, Option.some.injEq]
  rw [request_answer, flagsAfter_append, List.append_nil]

theorem answers_eq_map_iff (info : CompileInfo) (requests : List Request) :
    info.answers requests = requests.map (fun q : Request => (info.request q).1) ↔
      ∀ before q after, requests = before ++ q :: after → flagsAfter info before q = flagsAfter info [] q := by
  constructor
  · rintro same before q after rfl
    have here := flags_of_run info before after q
    rw [same, List.getElem?_map, List.getElem?_append_right (Nat.le_refl _)] at here
    simpa [request_answer] using here.symm
  · intro all
    refine List.ext_getElem? fun i => ?_
    by_cases inside : i < requests.length
    · obtain ⟨before, q, after, rfl, rfl⟩ : ∃ before q after, requests = before ++ q :: after ∧ i = before.length :=
        ⟨requests.take i, requests[i], requests.drop (i + 1), by simp, by simp; omega⟩
      rw [flags_of_run, all before q after rfl, ← request_answer]
      simp
    · rw [List.getElem?_eq_none (by rw [answers_length]; omega), List.getElem?_eq_none (by simp; omega)]

theorem flagsAfter_alone_iff (info : CompileInfo) (before : List Request) (q : Request) :
    flagsAfter info before q = flagsAfter info [] q ↔
      ∀ r ∈ before, Shares info q.file r.file → r.headers = [] ∨ IsText info q.file := by
  unfold flagsAfter IsText
  cases info.getCommandsForFile q.file with
  | text command => simp
  | arguments args =>
    have split : addedHeaders info q.file (before ++ [q]) =
        addedHeaders info q.file before ++ addedHeaders info q.file ([] ++ [q]) := by
      simp [addedHeaders]
    have apart : args ++ (addedHeaders info q.file (before ++ [q])).map includeFlag =
        args ++ (addedHeaders info q.file ([] ++ [q])).map includeFlag ↔ addedHeaders info q.file before = [] := by
      rw [List.append_cancel_left_eq, split, List.map_append]
      constructor
      · intro same
        have lengths := congrArg List.length same
        rw [List.length_append, List.length_map] at lengths
        exact List.length_eq_zero_iff.mp (by omega)
      · intro empty
        simp [empty]
    rw [Option.some.injEq, apart, addedHeaders, List.flatMap_eq_nil_iff]
    refine forall₂_congr fun r _ => ?_
    by_cases shared : Shares info q.file r.file <;> simp [shared]

/-- Every request of a run is passed what was loaded for its file and the headers
given so far for files of the same list. That is what it would be passed alone,
for all requests, exactly when no headers were given before for a file that is
handed the same list. -/
theorem shared_flags (info : CompileInfo) (requests : List Request) :
    (∀ before q after, requests = before ++ q :: after →
      (info.answers requests)[before.length]? = some (flagsAfter info before q)) ∧
    (info.answers requests = requests.map (fun q : Request => (info.request q).1) ↔
      ∀ before q after, requests = before ++ q :: after →
        ∀ r ∈ before, Shares info q.file r.file → r.headers = [] ∨ IsText info q.file) := by
  constructor
  · rintro before q after rfl
    exact flags_of_run info before after q
  · simp only [answers_eq_map_iff, flagsAfter_alone_iff]

/-- Without a database the headers of one file are flags of the next. -/
example : (CompileInfo.load ⟨fun _ => false, fun _ => none⟩ "aosp" none).answers [⟨"a.cpp", ["inc"]⟩, ⟨"b.cpp", []⟩] =
    [some (getDefaultCommands "aosp" ++ ["-Iinc"]), some (getDefaultCommands "aosp" ++ ["-Iinc"])] := by decide +kernel

end JgreAnalysis.CompileCommands
