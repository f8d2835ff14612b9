import JgreAnalysis.ScannedFiles

/-! The JNI map of a whole source directory. Tables that are written in its files
are read back, and of several registrations of one function the last stays, where
headers come before sources. -/
namespace JgreAnalysis.JniFramework
open FileNames CxxJniParser JniBridgeMap JniTables LastBindings SourceFileScanner ScannedFiles

variable (sources : JniSources)

/-- The file has these entries in its tables, one after the other. The parser does
not look at a file without any mention of the type. -/
def Writes (path : String) (entries : List JniEntry) : Prop :=
  (fastCheck sources path = false ∧ entries = []) ∨
  (fastCheck sources path = true ∧ ∃ parts after, sources.tokens path = some ((document parts after).map Token.clang) ∧
    (∀ part ∈ parts, ∀ tk ∈ part.1, isMention tk = false) ∧ (∀ tk ∈ after, isMention tk = false) ∧
    (∀ part ∈ parts, part.2.Ordinary) ∧ entries = documentEntries parts)

def registrationsOf (path : String) (entries : List JniEntry) : List (String × JniTarget) :=
  entries.map fun e => (e.cpp, ⟨path, e.java⟩)

/-- Files in the order in which the parser meets them. -/
def scanOrder (files : List String) : List String :=
  [".h", ".cc", ".cpp", ".c"].flatMap fun ext => files.filter (endsWith · ext)

variable {sources}

/-- The parser gets through a file that writes some entries, and assigns them. -/
theorem Writes.assigned (writes : Writes sources path entries) :
    Passes sources path ∧ filePairs sources path = registrationsOf path entries := by
  rcases writes with ⟨unchecked, rfl⟩ | ⟨checked, parts, after, parsed, noise, ends, ordinary, rfl⟩
  · simp [Passes, filePairs, registrationsOf, unchecked]
  have displayed : shownTokens sources path = document parts after := by
    rw [shownTokens, parsed, Option.getD_some, shown_clang]
  have blocks := jniTokens_document parts after noise ends ordinary
  constructor
  · refine fun _ => ⟨parsed ▸ legible_clang _, fun block member nameless => ?_⟩
    rw [displayed, blocks] at member
    obtain ⟨part, listed, rfl⟩ := List.mem_map.mp member
    obtain ⟨mention, rest, split, spelled, _, found⟩ := part.2.isTable (ordinary part listed)
    rw [split, items, List.filter_cons_of_neg (by simp [isItem, spelled]), found] at nameless
    cases nameless
  · rw [filePairs, if_pos checked, displayed, blocks, List.flatMap_map, registrationsOf, documentEntries, List.map_flatMap]
    exact List.flatMap_congr fun part member => blockPairs_table path (part.2.isTable (ordinary part member))

/-- Files that write their tables are read to the end, and of all registrations
the last stays. -/
theorem processCppFiles_writes (tables : String → List JniEntry) (files : List String)
    (written : ∀ path ∈ files, Writes sources path (tables path)) (saved : sources.opens jniJson = true) :
    ∃ map, processCppFiles sources files = .ok map ∧
      ∀ k target, map.lookup k = some target ↔
        IsLast (files.flatMap fun path => registrationsOf path (tables path)) k target := by
  obtain ⟨map, ran⟩ := (processCppFiles_ends_iff files).mpr ⟨fun path member => (written path member).assigned.1, saved⟩
  refine ⟨map, ran, fun k target => ?_⟩
  rw [processCppFiles_lookup ran, allPairs]
  exact iff_of_eq (congrArg (IsLast · k target) (List.flatMap_congr fun path member => (written path member).assigned.2))

/-- The scan can read and write what it has to: every directory can be listed, the
paths of all files are text, and the two files that it leaves can be opened. -/
structure Scannable (sources : JniSources) (pt : FileName) (entries : List Entry) : Prop where
  unlocked : ¬ Locked entries
  texts : ∀ path, Listed pt entries path → IsText path
  listOpens : sources.opens fileListPath = true
  mapOpens : sources.opens jniJson = true

/-- From a directory that can be scanned, and whose C and C++ files write their
tables, the scan reads the functions of all entries. Each has the file and the
Java name of its last entry, in the order of the scan. -/
theorem framework_round_trip (tables : String → List JniEntry) (root : listing (join srcDir (.of "")) = some (some entries))
    (wellNamed : WellNamed entries) (scannable : Scannable sources (join srcDir (.of "")) entries)
    (written : ∀ path, IsCppFile (join srcDir (.of "")) entries (.of path) → Writes sources path (tables path)) :
    ∃ files map, walkDir (join srcDir (.of "")) entries = .ok (files.map .of) ∧
      parseJniInFramework sources listing srcDir = .ok map ∧
      (∀ k, k ∈ map ↔ ∃ path, IsCppFile (join srcDir (.of "")) entries (.of path) ∧ ∃ e ∈ tables path, e.cpp = k) ∧
      ∀ k target, map.lookup k = some target ↔
        IsLast ((scanOrder files).flatMap fun path => registrationsOf path (tables path)) k target := by
  obtain ⟨handed, scanned⟩ := (handedOn_ends_iff root).mpr ⟨scannable.unlocked, scannable.listOpens, scannable.texts⟩
  have members (path : String) : path ∈ handed ↔ IsCppFile (join srcDir (.of "")) entries (.of path) := by
    rw [← mem_handedOn root wellNamed scanned, List.mem_map_of_injective of_injective]
  obtain ⟨files, walked, _, same⟩ := (handedOn_ok_iff root handed).mp scanned
  obtain ⟨map, ran, lookups⟩ := processCppFiles_writes tables handed
    (fun path member => written path ((members path).mp member)) scannable.mapOpens
  refine ⟨files, map, walked, LoopLaws.bind_ok.mpr ⟨handed, scanned, ran⟩, fun k => ?_, fun k target => ?_⟩
  · rw [← AList.lookup_isSome, Option.isSome_iff_exists]
    simp only [lookups, exists_isLast_iff, List.mem_flatMap, registrationsOf, List.mem_map, members]
    constructor
    · rintro ⟨_, ⟨path, file, e, member, rfl⟩, rfl⟩
      exact ⟨path, file, e, member, rfl⟩
    · rintro ⟨path, file, e, member, rfl⟩
      exact ⟨_, ⟨path, file, e, member, rfl⟩, rfl⟩
  · rw [lookups, same]
    rfl

/-- A directory where all files have the tables of the reader. -/
def readerSources : JniSources where
  isPresent _ := true
  textLines _ := ["static const JNINativeMethod gReader[] ="]
  tokens _ := some ((document readerParts []).map Token.clang)
  opens _ := true

theorem jniDirectory_scannable : Scannable readerSources (join (.of "core/jni") (.of "")) jniDirectory := by
  have handed : handedOn readerSources (fun _ => some (some jniDirectory)) (.of "core/jni") =
      .ok ["core/jni/media.h/jni.tar.h", "core/jni/init.cc", "core/jni/init.c"] := by
    decide +kernel
  obtain ⟨unlocked, _, texts⟩ := (handedOn_ends_iff rfl).mp ⟨_, handed⟩
  exact ⟨unlocked, texts, rfl, rfl⟩

theorem framework_round_trip_reader :
    (fun _ => some (some jniDirectory) : Listing) (join (.of "core/jni") (.of "")) = some (some jniDirectory) ∧ WellNamed jniDirectory ∧
    Scannable readerSources (join (.of "core/jni") (.of "")) jniDirectory ∧
    (∀ path, IsCppFile (join (.of "core/jni") (.of "")) jniDirectory (.of path) →
      Writes readerSources path (documentEntries readerParts)) ∧
    ∃ files map, walkDir (join (.of "core/jni") (.of "")) jniDirectory = .ok (files.map .of) ∧
      parseJniInFramework readerSources (fun _ => some (some jniDirectory)) (.of "core/jni") = .ok map ∧
      (∀ k, k ∈ map ↔ ∃ path, IsCppFile (join (.of "core/jni") (.of "")) jniDirectory (.of path) ∧
        ∃ e ∈ documentEntries readerParts, e.cpp = k) ∧
      ∀ k target, map.lookup k = some target ↔
        IsLast ((scanOrder files).flatMap fun path => registrationsOf path (documentEntries readerParts)) k target := by
  have ordinary : ∀ part ∈ readerParts, part.2.Ordinary := by
    simp [readerParts, JniTable.Ordinary, JniEntry.Ordinary, jniNativeMethod]
  have mentioned : ["static const JNINativeMethod gReader[] ="].any (NativeCallGraph.contains · jniNativeMethod) = true := by
    decide +kernel
  have writes (path : String) : Writes readerSources path (documentEntries readerParts) :=
    .inr ⟨mentioned, readerParts, [], rfl, by decide, by simp, ordinary, rfl⟩
  exact ⟨rfl, jniDirectory_wellNamed, jniDirectory_scannable, fun path _ => writes path,
    framework_round_trip (fun _ => documentEntries readerParts) rfl jniDirectory_wellNamed jniDirectory_scannable
      fun path _ => writes path⟩

end JgreAnalysis.JniFramework
