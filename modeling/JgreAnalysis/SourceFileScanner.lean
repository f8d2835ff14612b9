import Mathlib.Data.List.AList
import Mathlib.Data.List.Flatten
import JgreAnalysis.FileNames
import JgreAnalysis.JniBridgeMap

/-! The scan for source files. A directory is walked once, the files are listed in
a file, and then they are handed out by their endings, each ending through one
filter that is kept. -/
namespace JgreAnalysis.SourceFileScanner
open FileNames CxxJniParser JniBridgeMap

def fileListPath : String := "data/file_list.txt"

def targetExt : List FileName := [".java", ".h", ".cc", ".c", ".cpp", ".aidl"].map .of

def cppExt : List String := [".h", ".cc", ".cpp", ".c"]

def scanDirs : List FileName := [.of ""]

/-- What stands in a directory, as `isdir`, `isfile` and `listdir` tell it. A
locked directory cannot be listed. The special ones are neither file nor
directory, such as a link to nothing. -/
inductive Entry where
  | file (name : FileName)
  | dir (name : FileName) (entries : List Entry)
  | locked (name : FileName)
  | special (name : FileName)

def Entry.name : Entry → FileName
  | .file name => name
  | .dir name _ => name
  | .locked name => name
  | .special name => name

mutual
/-- One turn of the loop of `__walk_dir`. -/
def walkEntry (pt : FileName) : Entry → Except JniError (List FileName)
  | .dir fp entries => walkDir (join pt fp) entries
  | .locked _ => throw .osError
  | .file fp => pure (if (splitext fp).2 ∈ targetExt then [join pt fp] else [])
  | .special _ => pure []

def walkDir (pt : FileName) : List Entry → Except JniError (List FileName)
  | [] => pure []
  | fp :: files => do
    let found ← walkEntry pt fp
    let others ← walkDir pt files
    pure (found ++ others)
end

/-- The directories that exist, with what `listdir` gives for each of them, which is
nothing where it fails. -/
abbrev Listing := FileName → Option (Option (List Entry))

variable (sources : JniSources) (listing : Listing)

/-- Writing `file_list.txt`, one encoded path after the other. What is left are the
texts of the paths. -/
def writeFileList (files : List FileName) : Except JniError (List String) :=
  if sources.opens fileListPath then files.mapM fun fi => (encode fi).elim (throw .unicodeEncodeError) pure
  else throw .osError

/-- One turn of the loop of `__scan_files`. -/
def scanDir (dirPath : FileName) : Except JniError (List String) :=
  match listing dirPath with
  | none => pure []
  | some none => throw .osError
  | some (some entries) => do
    let files ← walkDir dirPath entries
    writeFileList sources files

def scanFiles (baseDir : FileName) : Except JniError (List String) :=
  scanDirs.foldlM (fun fileList ch => do pure (fileList ++ (← scanDir sources listing (join baseDir ch)))) []

/-- Python's `endswith`. -/
def endsWith (text ending : String) : Bool := ending.toList.isSuffixOf text.toList

/-- A `filter` over the files, with those that it has not looked at yet. -/
structure Filter where
  ext : String
  rest : List String
  deriving DecidableEq, Repr

structure Scanner where
  fileList : List String
  fileExtMp : AList fun _ : String => Filter

/-- A scanner after its construction. -/
def Scanner.of (fileList : List String) : Scanner := ⟨fileList, ∅⟩

/-- `get_files` makes the filter of an ending, unless it was made before. -/
def Scanner.getFiles (s : Scanner) (ext : String) : Scanner :=
  if ext ∈ s.fileExtMp then s else { s with fileExtMp := s.fileExtMp.insert ext ⟨ext, s.fileList⟩ }

/-- Reading the filter of an ending to its end leaves nothing in it. -/
def Scanner.consume (s : Scanner) (ext : String) : List String × Scanner :=
  match s.fileExtMp.lookup ext with
  | none => ([], s)
  | some filter => (filter.rest.filter (endsWith · filter.ext),
      { s with fileExtMp := s.fileExtMp.insert ext { filter with rest := [] } })

def Scanner.readFiles (s : Scanner) (ext : String) : List String × Scanner := (s.getFiles ext).consume ext

/-- The loop of `get_cpp_files` over some endings. -/
def Scanner.readEach (s : Scanner) : List String → List String × Scanner
  | [] => ([], s)
  | ext :: exts =>
    let (items, s) := s.readFiles ext
    let (rest, s) := s.readEach exts
    (items ++ rest, s)

def Scanner.readCppFiles (s : Scanner) : List String × Scanner := s.readEach cppExt

/-- The files that `parse_jni_in_framework` hands on, in order. -/
def handedOn (srcDir : FileName) : Except JniError (List String) := do
  let fileList ← scanFiles sources listing srcDir
  pure (Scanner.of fileList).readCppFiles.1

def parseJniInFramework (srcDir : FileName) : Except JniError JniMap := do
  let files ← handedOn sources listing srcDir
  processCppFiles sources files

/-! ## Reading twice -/

/-- A call of one of the two queries, whose result is read to its end. -/
inductive Query where
  | files (ext : String)
  | cppFiles
  deriving DecidableEq, Repr

def Scanner.answer (s : Scanner) : Query → List String × Scanner
  | .files ext => s.readFiles ext
  | .cppFiles => s.readCppFiles

def Scanner.answers (s : Scanner) : List Query → List (List String)
  | [] => []
  | q :: queries => (s.answer q).1 :: (s.answer q).2.answers queries

/-- The endings that a query asks for. -/
def Query.exts : Query → List String
  | .files ext => [ext]
  | .cppFiles => cppExt

def withEnding (fileList : List String) (ext : String) : List String := fileList.filter (endsWith · ext)

/-- What a query should give. -/
def Query.wanted (fileList : List String) (q : Query) : List String := q.exts.flatMap (withEnding fileList)

/-- The scanner has been asked for some endings, and their filters are empty. -/
structure Asked (fileList done : List String) (s : Scanner) : Prop where
  files : s.fileList = fileList
  filters : ∀ ext, s.fileExtMp.lookup ext = if ext ∈ done then some ⟨ext, []⟩ else none

theorem asked_of (fileList : List String) : Asked fileList [] (.of fileList) := ⟨rfl, by simp [Scanner.of]⟩

/-- What is left for an ending. -/
def remaining (fileList done : List String) (ext : String) : List String :=
  if ext ∈ done then [] else withEnding fileList ext

/-- The filter of an ending is there, and is empty if the ending was asked for
before. -/
theorem getFiles_filters (asked : Asked fileList done s) (ext : String) :
    (s.getFiles ext).fileList = fileList ∧
    (s.getFiles ext).fileExtMp.lookup ext = some ⟨ext, if ext ∈ done then [] else fileList⟩ ∧
    ∀ other, other ≠ ext → (s.getFiles ext).fileExtMp.lookup other = s.fileExtMp.lookup other := by
  have stored := asked.filters ext
  unfold Scanner.getFiles
  by_cases again : ext ∈ done
  · rw [if_pos again] at stored
    have present : ext ∈ s.fileExtMp := AList.lookup_isSome.mp (by simp [stored])
    rw [if_pos present, if_pos again]
    exact ⟨asked.files, stored, fun _ _ => rfl⟩
  · rw [if_neg again] at stored
    rw [if_neg (AList.lookup_eq_none.mp stored), if_neg again]
    exact ⟨asked.files, by simp [asked.files], fun other different => AList.lookup_insert_ne different⟩

theorem readFiles_asked (asked : Asked fileList done s) (ext : String) :
    (s.readFiles ext).1 = remaining fileList done ext ∧ Asked fileList (ext :: done) (s.readFiles ext).2 := by
  obtain ⟨files, own, others⟩ := getFiles_filters asked ext
  have read : s.readFiles ext = ((if ext ∈ done then [] else fileList).filter (endsWith · ext),
      { s.getFiles ext with fileExtMp := (s.getFiles ext).fileExtMp.insert ext ⟨ext, []⟩ }) := by
    simp [Scanner.readFiles, Scanner.consume, own]
  rw [read]
  refine ⟨?_, files, fun other => ?_⟩
  · unfold remaining withEnding
    split <;> rfl
  · by_cases same : other = ext
    · subst same
      simp
    · simp [AList.lookup_insert_ne same, others other same, asked.filters other, same]

/-- Asking for several endings gives what is left for each of them. -/
theorem readEach_asked (asked : Asked fileList done s) (exts : List String) (distinct : exts.Nodup) :
    (s.readEach exts).1 = exts.flatMap (remaining fileList done) ∧ Asked fileList (exts.reverse ++ done) (s.readEach exts).2 := by
  induction exts generalizing done s with
  | nil => exact ⟨rfl, asked⟩
  | cons ext exts ih =>
    obtain ⟨fresh, others⟩ := List.nodup_cons.mp distinct
    obtain ⟨first, stepped⟩ := readFiles_asked asked ext
    obtain ⟨rest, ended⟩ := ih stepped others
    have untouched : exts.flatMap (remaining fileList (ext :: done)) = exts.flatMap (remaining fileList done) := by
      refine List.flatMap_congr fun other member => ?_
      have different : other ≠ ext := fun same => fresh (same ▸ member)
      simp [remaining, different]
    have read : s.readEach (ext :: exts) = ((s.readFiles ext).1 ++ ((s.readFiles ext).2.readEach exts).1,
        ((s.readFiles ext).2.readEach exts).2) := rfl
    rw [read, List.flatMap_cons]
    exact ⟨by rw [first, rest, untouched], by simpa using ended⟩

theorem answer_asked (asked : Asked fileList done s) (q : Query) :
    (s.answer q).1 = q.exts.flatMap (remaining fileList done) ∧ Asked fileList (q.exts.reverse ++ done) (s.answer q).2 := by
  cases q with
  | files ext => simpa [Scanner.answer, Query.exts] using readFiles_asked asked ext
  | cppFiles => exact readEach_asked asked cppExt (by decide)

/-- The first answer of a scanner is the wanted one. -/
theorem first_answer (fileList : List String) (q : Query) : ((Scanner.of fileList).answer q).1 = q.wanted fileList := by
  rw [(answer_asked (asked_of fileList) q).1]
  exact List.flatMap_congr fun ext _ => by simp [remaining]

theorem remaining_sublist (fileList done exts : List String) :
    (exts.flatMap (remaining fileList done)).Sublist (exts.flatMap (withEnding fileList)) := by
  refine List.Sublist.flatMap_right exts fun ext _ => ?_
  unfold remaining
  split
  · exact List.nil_sublist _
  · exact List.Sublist.refl _

/-- What is left is all that is wanted exactly where nothing is wanted of an
ending that was asked for. -/
theorem remaining_wanted_iff (fileList done exts : List String) :
    exts.flatMap (remaining fileList done) = exts.flatMap (withEnding fileList) ↔
      ∀ ext ∈ exts, ext ∈ done → withEnding fileList ext = [] := by
  induction exts with
  | nil => simp
  | cons ext exts ih =>
    rw [List.flatMap_cons, List.flatMap_cons, List.forall_mem_cons, ← ih]
    by_cases again : ext ∈ done
    · have nothing : remaining fileList done ext = [] := if_pos again
      rw [nothing, List.nil_append]
      constructor
      · intro same
        have lengths := congrArg List.length same
        have bound := (remaining_sublist fileList done exts).length_le
        rw [List.length_append] at lengths
        have empty : withEnding fileList ext = [] := List.length_eq_zero_iff.mp (by omega)
        rw [empty, List.nil_append] at same
        exact ⟨fun _ => empty, same⟩
      · rintro ⟨empty, same⟩
        rw [empty again, same, List.nil_append]
    · have all : remaining fileList done ext = withEnding fileList ext := if_neg again
      rw [all, List.append_cancel_left_eq]
      simp [again]

/-- The answers of an asked scanner are the wanted ones exactly where no ending
that is asked for again has files. -/
theorem answers_asked_iff (asked : Asked fileList done s) (queries : List Query) :
    s.answers queries = queries.map (Query.wanted fileList) ↔
      ∀ before q after, queries = before ++ q :: after → ∀ ext ∈ q.exts,
        ext ∈ done ∨ ext ∈ before.flatMap Query.exts → withEnding fileList ext = [] := by
  induction queries generalizing done s with
  | nil => simp [Scanner.answers]
  | cons q queries ih =>
    obtain ⟨first, stepped⟩ := answer_asked asked q
    rw [Scanner.answers, List.map_cons, List.cons.injEq, first, Query.wanted, remaining_wanted_iff, ih stepped]
    constructor
    · rintro ⟨here, later⟩ before other after split ext wanted again
      cases before with
      | nil =>
        obtain ⟨rfl, rfl⟩ := List.cons.inj split
        exact here ext wanted (by simpa using again)
      | cons head before =>
        obtain ⟨rfl, rfl⟩ := List.cons.inj split
        refine later before other after rfl ext wanted ?_
        simp only [List.flatMap_cons, List.mem_append, List.mem_reverse] at again ⊢
        tauto
    · intro all
      refine ⟨fun ext wanted again => all [] q queries rfl ext wanted (.inl again), ?_⟩
      rintro before other after rfl ext wanted again
      refine all (q :: before) other after rfl ext wanted ?_
      simp only [List.flatMap_cons, List.mem_append, List.mem_reverse] at again ⊢
      tauto

/-- Every call gives the files of the list with the endings it asks for, exactly
when no call asks again for an ending that a file has. -/
theorem queries_repeatable_iff (fileList : List String) (queries : List Query) :
    (Scanner.of fileList).answers queries = queries.map (Query.wanted fileList) ↔
      ∀ before q after, queries = before ++ q :: after → ∀ ext ∈ q.exts, ext ∈ before.flatMap Query.exts →
        ∀ f ∈ fileList, endsWith f ext = false := by
  rw [answers_asked_iff (asked_of fileList)]
  simp [withEnding]

/-- The second time there is nothing left. -/
theorem source_read_twice :
    (Scanner.of ["jni/init.c"]).answers [.files ".c", .files ".c"] = [["jni/init.c"], []] ∧
    ¬ ∀ (fileList : List String) (queries : List Query),
      (Scanner.of fileList).answers queries = queries.map (Query.wanted fileList) := by
  have answers : (Scanner.of ["jni/init.c"]).answers [.files ".c", .files ".c"] = [["jni/init.c"], []] := by
    decide +kernel
  refine ⟨answers, fun repeatable => ?_⟩
  have wanted := repeatable ["jni/init.c"] [.files ".c", .files ".c"]
  rw [answers] at wanted
  revert wanted
  decide +kernel

end JgreAnalysis.SourceFileScanner
