import Mathlib.Data.Set.List
import JgreAnalysis.SourceFileScanner

/-! Which files the scan hands on, and when it hands on any. The walk keeps files
by the extension of their name and the filters pick them by the ending of their
path, and both tell the same files apart. Before that the paths of all files are
written to a list. -/
namespace JgreAnalysis.ScannedFiles
open FileNames SourceFileScanner CxxJniParser JniBridgeMap JniTables

/-- A file below some directories. -/
inductive FileAt : List Entry → List FileName → FileName → Prop where
  | here : .file name ∈ entries → FileAt entries [] name
  | inside : .dir d files ∈ entries → FileAt files dirs name → FileAt entries (d :: dirs) name

/-- Somewhere below is a directory that cannot be listed. -/
inductive Locked : List Entry → Prop where
  | here : .locked d ∈ entries → Locked entries
  | inside : .dir d files ∈ entries → Locked files → Locked entries

/-- In every directory the names are different. -/
inductive WellNamed : List Entry → Prop where
  | mk : (entries.map Entry.name).Nodup → (∀ e ∈ entries, IsName e.name) →
      (∀ d files, .dir d files ∈ entries → WellNamed files) → WellNamed entries

/-- The walk lists a file by its path where its extension is wanted. -/
def Listed (pt : FileName) (entries : List Entry) (path : FileName) : Prop :=
  ∃ dirs name, FileAt entries dirs name ∧ (splitext name).2 ∈ targetExt ∧ path = filePath pt dirs name

/-- The path of a C or C++ file. -/
def IsCppFile (pt : FileName) (entries : List Entry) (path : FileName) : Prop :=
  ∃ dirs name, FileAt entries dirs name ∧ (splitext name).2 ∈ [".h", ".cc", ".cpp", ".c"].map FileName.of ∧
    path = filePath pt dirs name

/-! ## The first entry and the others -/

theorem FileAt.mono (file : FileAt entries dirs name) (subset : entries ⊆ others) : FileAt others dirs name := by
  cases file with
  | here member => exact .here (subset member)
  | inside member file => exact .inside (subset member) file

theorem fileAt_cons : FileAt (e :: entries) dirs name ↔ FileAt [e] dirs name ∨ FileAt entries dirs name := by
  constructor
  · intro file
    cases file with
    | here member =>
      rcases List.mem_cons.mp member with rfl | later
      · exact .inl (.here List.mem_cons_self)
      · exact .inr (.here later)
    | inside member file =>
      rcases List.mem_cons.mp member with rfl | later
      · exact .inl (.inside List.mem_cons_self file)
      · exact .inr (.inside later file)
  · rintro (file | file)
    · exact file.mono (by simp)
    · exact file.mono (List.subset_cons_self _ _)

theorem listed_cons : Listed pt (e :: entries) path ↔ Listed pt [e] path ∨ Listed pt entries path := by
  have first (dirs : List FileName) (name : FileName) :
      FileAt (e :: entries) dirs name ↔ FileAt [e] dirs name ∨ FileAt entries dirs name := fileAt_cons
  simp only [Listed, first, or_and_right, exists_or]

theorem listed_file : Listed pt [.file fp] path ↔ (splitext fp).2 ∈ targetExt ∧ path = join pt fp := by
  constructor
  · rintro ⟨dirs, name, file, wanted, rfl⟩
    cases file with
    | here member =>
      cases List.mem_singleton.mp member
      exact ⟨wanted, rfl⟩
    | inside member _ => cases List.mem_singleton.mp member
  · rintro ⟨wanted, rfl⟩
    exact ⟨[], fp, .here List.mem_cons_self, wanted, rfl⟩

theorem listed_dir : Listed pt [.dir d files] path ↔ Listed (join pt d) files path := by
  constructor
  · rintro ⟨dirs, name, file, wanted, rfl⟩
    cases file with
    | here member => cases List.mem_singleton.mp member
    | inside member file =>
      cases List.mem_singleton.mp member
      exact ⟨_, name, file, wanted, rfl⟩
  · rintro ⟨dirs, name, file, wanted, rfl⟩
    exact ⟨d :: dirs, name, .inside List.mem_cons_self file, wanted, rfl⟩

theorem not_listed (empty : ∀ e ∈ entries, ∀ name, e ≠ .file name ∧ ∀ files, e ≠ .dir name files) :
    ¬ Listed pt entries path := by
  rintro ⟨dirs, name, file, _⟩
  cases file with
  | here member => exact (empty _ member _).1 rfl
  | inside member _ => exact (empty _ member _).2 _ rfl

theorem Locked.mono (locked : Locked entries) (subset : entries ⊆ others) : Locked others := by
  cases locked with
  | here member => exact .here (subset member)
  | inside member locked => exact .inside (subset member) locked

theorem locked_cons : Locked (e :: entries) ↔ Locked [e] ∨ Locked entries := by
  constructor
  · intro locked
    cases locked with
    | here member =>
      rcases List.mem_cons.mp member with rfl | later
      · exact .inl (.here List.mem_cons_self)
      · exact .inr (.here later)
    | inside member locked =>
      rcases List.mem_cons.mp member with rfl | later
      · exact .inl (.inside List.mem_cons_self locked)
      · exact .inr (.inside later locked)
  · rintro (locked | locked)
    · exact locked.mono (by simp)
    · exact locked.mono (List.subset_cons_self _ _)

theorem not_locked (plain : ∀ e ∈ entries, ∀ d, e ≠ .locked d ∧ ∀ files, e ≠ .dir d files) : ¬ Locked entries := by
  intro locked
  cases locked with
  | here member => exact (plain _ member _).1 rfl
  | inside member _ => exact (plain _ member _).2 _ rfl

theorem locked_dir : Locked [.dir d files] ↔ Locked files := by
  constructor
  · intro locked
    cases locked with
    | here member => cases List.mem_singleton.mp member
    | inside member locked =>
      cases List.mem_singleton.mp member
      exact locked
  · exact .inside List.mem_cons_self

/-- The first name on the way to a file is that of an entry. -/
theorem FileAt.first_name (file : FileAt entries dirs name) : ∃ e ∈ entries, (dirs ++ [name]).head? = some e.name := by
  cases file with
  | here member => exact ⟨_, member, rfl⟩
  | inside member _ => exact ⟨_, member, rfl⟩

theorem WellNamed.cons (wellNamed : WellNamed (e :: entries)) :
    WellNamed [e] ∧ WellNamed entries ∧ ∀ other ∈ entries, e.name ≠ other.name := by
  obtain ⟨unique, names, deeper⟩ := wellNamed
  obtain ⟨fresh, distinct⟩ := List.nodup_cons.mp unique
  obtain ⟨named, others⟩ := List.forall_mem_cons.mp names
  refine ⟨.mk (by simp) (by simpa using named) fun d files member => deeper d files ?_,
    .mk distinct others fun d files member => deeper d files (List.mem_cons_of_mem _ member), ?_⟩
  · exact List.mem_cons.mpr (.inl (List.mem_singleton.mp member))
  · exact fun other member same => fresh (same ▸ List.mem_map_of_mem member)

theorem WellNamed.dir (wellNamed : WellNamed [.dir d files]) : WellNamed files := by
  obtain ⟨_, _, deeper⟩ := wellNamed
  exact deeper d files List.mem_cons_self

theorem FileAt.named (file : FileAt entries dirs name) (wellNamed : WellNamed entries) :
    (∀ d ∈ dirs, IsName d) ∧ IsName name := by
  induction file with
  | here member =>
    obtain ⟨_, names, _⟩ := wellNamed
    exact ⟨by simp, names _ member⟩
  | inside member _ ih =>
    obtain ⟨_, names, deeper⟩ := wellNamed
    obtain ⟨dirs, name⟩ := ih (deeper _ _ member)
    exact ⟨List.forall_mem_cons.mpr ⟨names _ member, dirs⟩, name⟩

/-- Files at different places have different paths. -/
theorem fileAt_unique (wellNamed : WellNamed entries) (file : FileAt entries dirs name) (second : FileAt entries others other)
    (same : filePath pt dirs name = filePath pt others other) : dirs = others ∧ name = other := by
  obtain ⟨dirsNamed, named⟩ := file.named wellNamed
  obtain ⟨othersNamed, otherNamed⟩ := second.named wellNamed
  exact filePath_injective pt dirsNamed named othersNamed otherNamed same

/-! ## The walk -/

theorem walkDir_cons_ok (pt : FileName) (e : Entry) (entries : List Entry) : walkDir pt (e :: entries) = .ok files ↔
    ∃ found others, walkEntry pt e = .ok found ∧ walkDir pt entries = .ok others ∧ files = found ++ others := by
  simp only [walkDir, LoopLaws.bind_ok, pure, Except.pure, Except.ok.injEq]
  constructor
  · rintro ⟨found, first, others, rest, rfl⟩
    exact ⟨found, others, first, rest, rfl⟩
  · rintro ⟨found, others, first, rest, rfl⟩
    exact ⟨found, first, others, rest, rfl⟩

mutual
theorem walkEntry_ends_iff (pt : FileName) (e : Entry) : (∃ files, walkEntry pt e = .ok files) ↔ ¬ Locked [e] := by
  cases e with
  | file fp => exact iff_of_true ⟨_, rfl⟩ (not_locked (by simp))
  | dir fp entries =>
    rw [walkEntry, locked_dir]
    exact walkDir_ends_iff (join pt fp) entries
  | locked fp => exact iff_of_false nofun (not_not.mpr (.here List.mem_cons_self))
  | special fp => exact iff_of_true ⟨_, rfl⟩ (not_locked (by simp))

theorem walkDir_ends_iff (pt : FileName) (entries : List Entry) :
    (∃ files, walkDir pt entries = .ok files) ↔ ¬ Locked entries := by
  cases entries with
  | nil => exact iff_of_true ⟨_, rfl⟩ (not_locked (by simp))
  | cons e entries =>
    rw [locked_cons, not_or, ← walkEntry_ends_iff pt e, ← walkDir_ends_iff pt entries]
    simp only [walkDir_cons_ok]
    constructor
    · rintro ⟨_, found, others, first, rest, _⟩
      exact ⟨⟨found, first⟩, others, rest⟩
    · rintro ⟨⟨found, first⟩, others, rest⟩
      exact ⟨_, found, others, first, rest, rfl⟩
end

mutual
theorem mem_walkEntry (pt : FileName) (e : Entry) (ran : walkEntry pt e = .ok files) : path ∈ files ↔ Listed pt [e] path := by
  cases e with
  | file fp =>
    cases ran
    rw [listed_file]
    split <;> simp_all
  | dir fp entries => exact (mem_walkDir (join pt fp) entries ran).trans listed_dir.symm
  | locked fp => cases ran
  | special fp =>
    cases ran
    exact iff_of_false nofun (not_listed (by simp))

/-- The walk that ends lists the files with wanted extensions. -/
theorem mem_walkDir (pt : FileName) (entries : List Entry) (ran : walkDir pt entries = .ok files) :
    path ∈ files ↔ Listed pt entries path := by
  cases entries with
  | nil =>
    cases ran
    exact iff_of_false nofun (not_listed (by simp))
  | cons e entries =>
    obtain ⟨found, others, first, rest, rfl⟩ := (walkDir_cons_ok pt e entries).mp ran
    rw [List.mem_append, listed_cons, mem_walkEntry pt e first, mem_walkDir pt entries rest]
end

mutual
theorem walkEntry_nodup (pt : FileName) (e : Entry) (wellNamed : WellNamed [e]) (ran : walkEntry pt e = .ok files) :
    files.Nodup := by
  cases e with
  | file fp =>
    cases ran
    split <;> simp
  | dir fp entries => exact walkDir_nodup (join pt fp) entries wellNamed.dir ran
  | locked fp => cases ran
  | special fp =>
    cases ran
    exact List.nodup_nil

/-- The walk lists no path twice. -/
theorem walkDir_nodup (pt : FileName) (entries : List Entry) (wellNamed : WellNamed entries)
    (ran : walkDir pt entries = .ok files) : files.Nodup := by
  cases entries with
  | nil =>
    cases ran
    exact List.nodup_nil
  | cons e entries =>
    obtain ⟨found, others, first, rest, rfl⟩ := (walkDir_cons_ok pt e entries).mp ran
    obtain ⟨own, later, fresh⟩ := wellNamed.cons
    refine List.nodup_append.mpr ⟨walkEntry_nodup pt e own first, walkDir_nodup pt entries later rest, ?_⟩
    rintro path here _ there rfl
    obtain ⟨dirs, name, file, _, rfl⟩ := (mem_walkEntry pt e first).mp here
    obtain ⟨others, other, second, _, same⟩ := (mem_walkDir pt entries rest).mp there
    obtain ⟨rfl, rfl⟩ := fileAt_unique wellNamed (fileAt_cons.mpr (.inl file)) (fileAt_cons.mpr (.inr second)) same
    obtain ⟨_, member, begins⟩ := file.first_name
    obtain ⟨another, listed, beginsToo⟩ := second.first_name
    cases List.mem_singleton.mp member
    exact fresh another listed (Option.some.inj (begins.symm.trans beginsToo))
end

/-! ## What is handed on -/

section
variable {sources : JniSources} {listing : Listing} {srcDir : FileName} {entries : List Entry}

theorem writeFileList_ok_iff (files : List FileName) (texts : List String) :
    writeFileList sources files = .ok texts ↔ sources.opens fileListPath = true ∧ files = texts.map .of := by
  have line (fi : FileName) (text : String) :
      ((encode fi).elim (throw .unicodeEncodeError) pure : Except JniError String) = .ok text ↔ fi = .of text := by
    rw [← encode_eq_some]
    cases encode fi <;> simp [throw, throwThe, MonadExceptOf.throw, pure, Except.pure]
  unfold writeFileList
  by_cases opened : sources.opens fileListPath = true
  · rw [if_pos opened, LoopLaws.mapM_ok_iff]
    simp only [line, opened, true_and]
    rw [← List.forall₂_map_right_iff (R := Eq), List.forall₂_eq_eq_eq]
  · simp [opened, throw, throwThe, MonadExceptOf.throw]

theorem scanFiles_eq (sources : JniSources) (listing : Listing) (srcDir : FileName) :
    scanFiles sources listing srcDir = scanDir sources listing (join srcDir (.of "")) := by
  simp only [scanFiles, scanDirs, List.foldlM_cons, List.foldlM_nil, List.nil_append, bind_pure]

/-- The list that is written has the files of the walk. -/
theorem scanFiles_ok_iff (root : listing (join srcDir (.of "")) = some (some entries)) (texts : List String) :
    scanFiles sources listing srcDir = .ok texts ↔
      walkDir (join srcDir (.of "")) entries = .ok (texts.map .of) ∧ sources.opens fileListPath = true := by
  simp only [scanFiles_eq, scanDir, root, LoopLaws.bind_ok, writeFileList_ok_iff]
  constructor
  · rintro ⟨_, walked, opened, rfl⟩
    exact ⟨walked, opened⟩
  · rintro ⟨walked, opened⟩
    exact ⟨_, walked, opened, rfl⟩

theorem handedOn_unlisted (unlisted : listing (join srcDir (.of "")) = some none) :
    handedOn sources listing srcDir = .error .osError := by
  simp only [handedOn, scanFiles_eq, scanDir, unlisted]
  rfl

theorem handedOn_ok_iff (root : listing (join srcDir (.of "")) = some (some entries)) (files : List String) :
    handedOn sources listing srcDir = .ok files ↔ ∃ texts, walkDir (join srcDir (.of "")) entries = .ok (texts.map .of) ∧
      sources.opens fileListPath = true ∧ files = cppExt.flatMap (withEnding texts) := by
  simp only [handedOn, LoopLaws.bind_ok, scanFiles_ok_iff root, pure, Except.pure, Except.ok.injEq, and_assoc]
  refine exists_congr fun texts => and_congr_right fun _ => and_congr_right fun _ => ?_
  have read : (Scanner.of texts).readCppFiles.1 = cppExt.flatMap (withEnding texts) := first_answer texts .cppFiles
  rw [read]
  exact eq_comm

/-- The scan comes to hand on files exactly when every directory can be listed, the
list of files can be written and every path in it is text. -/
theorem handedOn_ends_iff (root : listing (join srcDir (.of "")) = some (some entries)) :
    (∃ files, handedOn sources listing srcDir = .ok files) ↔
      ¬ Locked entries ∧ sources.opens fileListPath = true ∧
        ∀ path, Listed (join srcDir (.of "")) entries path → IsText path := by
  simp only [handedOn_ok_iff root, ← walkDir_ends_iff (join srcDir (.of ""))]
  constructor
  · rintro ⟨_, texts, walked, opened, _⟩
    refine ⟨⟨_, walked⟩, opened, fun path listed => ?_⟩
    obtain ⟨text, _, rfl⟩ := List.mem_map.mp ((mem_walkDir _ entries walked).mpr listed)
    exact (isText_iff _).mpr ⟨text, rfl⟩
  · rintro ⟨⟨files, walked⟩, opened, legible⟩
    have encoded : files ∈ Set.range (List.map FileName.of) := by
      rw [Set.range_list_map]
      intro path member
      obtain ⟨text, same⟩ := (isText_iff path).mp (legible path ((mem_walkDir _ entries walked).mp member))
      exact ⟨text, same.symm⟩
    obtain ⟨texts, rfl⟩ := encoded
    exact ⟨_, texts, walked, opened, rfl⟩

theorem endsWith_of (path ext : String) : endsWith path ext = endsIn (.of path) (.of ext) := by
  rw [Bool.eq_iff_iff, endsWith, endsIn, List.isSuffixOf_iff_suffix, List.isSuffixOf_iff_suffix, FileName.of, FileName.of,
    List.suffix_map_iff_of_injective fun _ _ => CodePoint.char.inj]

theorem isExtension_cppExt : ∀ ext ∈ cppExt, IsExtension (.of ext) := by
  have dotted (tail : List Char) (free : '.' ∉ tail) : IsExtension (.of (String.ofList ('.' :: tail))) :=
    ⟨tail.map .char, by simp [FileName.of], by simpa using free⟩
  simp only [cppExt, List.forall_mem_cons, List.not_mem_nil, false_implies, implies_true, and_true]
  exact ⟨dotted ['h'] (by decide), dotted ['c', 'c'] (by decide), dotted ['c', 'p', 'p'] (by decide),
    dotted ['c'] (by decide)⟩

theorem wanted_cppExt : ∀ ext ∈ cppExt, FileName.of ext ∈ targetExt := by decide

/-- The filters agree with the walk: a file goes through the filter of its
extension. -/
theorem mem_withEnding_iff (wellNamed : WellNamed entries) (walked : walkDir pt entries = .ok (texts.map .of))
    (cpp : ext ∈ cppExt) (path : String) : path ∈ withEnding texts ext ↔
      ∃ dirs name, FileAt entries dirs name ∧ (splitext name).2 = .of ext ∧ .of path = filePath pt dirs name := by
  have filled : ∀ ext ∈ targetExt, ext ≠ [] := by decide
  have listed : path ∈ texts ↔ Listed pt entries (.of path) := by
    rw [← mem_walkDir pt entries walked, List.mem_map_of_injective of_injective]
  rw [withEnding, List.mem_filter, listed, endsWith_of]
  constructor
  · rintro ⟨⟨dirs, name, file, listed, same⟩, ends⟩
    obtain ⟨dirsNamed, named⟩ := file.named wellNamed
    rw [same] at ends
    exact ⟨dirs, name, file, (endsIn_iff dirsNamed named (filled _ listed) (isExtension_cppExt ext cpp) pt).mp ends, same⟩
  · rintro ⟨dirs, name, file, own, same⟩
    obtain ⟨dirsNamed, named⟩ := file.named wellNamed
    have extended : (splitext name).2 ∈ targetExt := own ▸ wanted_cppExt ext cpp
    rw [same]
    exact ⟨⟨dirs, name, file, extended, rfl⟩,
      (endsIn_iff dirsNamed named (filled _ extended) (isExtension_cppExt _ cpp) pt).mpr own⟩

theorem mem_handedOn (root : listing (join srcDir (.of "")) = some (some entries)) (wellNamed : WellNamed entries)
    (handed : handedOn sources listing srcDir = .ok files) (path : FileName) :
    path ∈ files.map FileName.of ↔ IsCppFile (join srcDir (.of "")) entries path := by
  obtain ⟨texts, walked, _, rfl⟩ := (handedOn_ok_iff root files).mp handed
  have within (ext : String) (cpp : ext ∈ cppExt) (text : String) := mem_withEnding_iff wellNamed walked cpp text
  constructor
  · intro member
    obtain ⟨text, listed, rfl⟩ := List.mem_map.mp member
    obtain ⟨ext, cpp, ends⟩ := List.mem_flatMap.mp listed
    obtain ⟨dirs, name, file, own, same⟩ := (within ext cpp text).mp ends
    exact ⟨dirs, name, file, own ▸ List.mem_map_of_mem cpp, same⟩
  · rintro ⟨dirs, name, file, member, rfl⟩
    obtain ⟨ext, cpp, own⟩ := List.mem_map.mp member
    obtain ⟨text, listed, same⟩ := List.mem_map.mp
      ((mem_walkDir _ entries walked).mpr ⟨dirs, name, file, own ▸ wanted_cppExt ext cpp, rfl⟩)
    rw [← same]
    exact List.mem_map_of_mem (List.mem_flatMap.mpr ⟨ext, cpp, (within ext cpp text).mpr ⟨dirs, name, file, own.symm, same⟩⟩)

theorem handedOn_nodup (root : listing (join srcDir (.of "")) = some (some entries)) (wellNamed : WellNamed entries)
    (handed : handedOn sources listing srcDir = .ok files) : files.Nodup := by
  obtain ⟨texts, walked, _, rfl⟩ := (handedOn_ok_iff root files).mp handed
  have once : texts.Nodup := List.Nodup.of_map _ (walkDir_nodup _ entries wellNamed walked)
  rw [List.nodup_flatMap]
  refine ⟨fun ext _ => once.filter _, ?_⟩
  have distinct : cppExt.Pairwise (· ≠ ·) := by decide
  refine distinct.imp_of_mem fun {ext second} member another differ path here there => ?_
  obtain ⟨dirs, name, file, own, same⟩ := (mem_withEnding_iff wellNamed walked member path).mp here
  obtain ⟨others, other, found, ownToo, sameToo⟩ := (mem_withEnding_iff wellNamed walked another path).mp there
  obtain ⟨rfl, rfl⟩ := fileAt_unique wellNamed file found (same.symm.trans sameToo)
  exact differ (of_injective (own.symm.trans ownToo))

/-- Every C or C++ file below a source directory that exists is handed on once, and
no other file is, exactly when every directory can be listed, the list of files can
be written and every path in it is text. Files at different places have different
paths. -/
theorem cpp_files_handed_on_once_iff (sources : JniSources) (listing : Listing) (srcDir : FileName)
    (listed : Option (List Entry)) (present : listing (join srcDir (.of "")) = some listed)
    (wellNamed : WellNamed (listed.getD [])) :
    ((∃ files, handedOn sources listing srcDir = .ok files ∧ files.Nodup ∧
      ∀ path, path ∈ files.map FileName.of ↔ IsCppFile (join srcDir (.of "")) (listed.getD []) path) ↔
      ∃ entries, listed = some entries ∧ ¬ Locked entries ∧ sources.opens fileListPath = true ∧
        ∀ path, Listed (join srcDir (.of "")) entries path → IsText path) ∧
    ∀ dirs name others other, FileAt (listed.getD []) dirs name → FileAt (listed.getD []) others other →
      filePath (join srcDir (.of "")) dirs name = filePath (join srcDir (.of "")) others other →
      dirs = others ∧ name = other := by
  refine ⟨?_, fun _ _ _ _ => fileAt_unique wellNamed⟩
  cases listed with
  | none =>
    simp only [handedOn_unlisted present, reduceCtorEq, false_and, exists_false]
  | some entries =>
    simp only [Option.some.injEq, exists_eq_left', ← handedOn_ends_iff present]
    refine ⟨fun ⟨files, handed, _⟩ => ⟨files, handed⟩, fun ⟨files, handed⟩ => ?_⟩
    exact ⟨files, handed, handedOn_nodup present wellNamed handed, mem_handedOn present wellNamed handed⟩

/-- The scan of a source directory ends, with the map saved, exactly when it hands
on files and the parser gets through each of them. -/
theorem framework_scan_ends_iff (root : listing (join srcDir (.of "")) = some (some entries)) (wellNamed : WellNamed entries) :
    (∃ map, parseJniInFramework sources listing srcDir = .ok map) ↔
      (∃ files, handedOn sources listing srcDir = .ok files) ∧
      (∀ path, IsCppFile (join srcDir (.of "")) entries (.of path) → fastCheck sources path = true →
        Legible ((sources.tokens path).getD []) ∧ ¬ NamesNothing (shownTokens sources path)) ∧
      sources.opens jniJson = true := by
  have handedFiles (files : List String) (handed : handedOn sources listing srcDir = .ok files) (path : String) :
      path ∈ files ↔ IsCppFile (join srcDir (.of "")) entries (.of path) := by
    rw [← mem_handedOn root wellNamed handed, List.mem_map_of_injective of_injective]
  have processed (files : List String) (handed : handedOn sources listing srcDir = .ok files) :
      (∃ map, processCppFiles sources files = .ok map) ↔
        (∀ path, IsCppFile (join srcDir (.of "")) entries (.of path) → Passes sources path) ∧ sources.opens jniJson = true := by
    rw [processCppFiles_ends_iff]
    simp only [handedFiles files handed]
  simp only [parseJniInFramework, LoopLaws.bind_ok, ← passes_iff]
  constructor
  · rintro ⟨map, files, handed, ran⟩
    exact ⟨⟨files, handed⟩, (processed files handed).mp ⟨map, ran⟩⟩
  · rintro ⟨⟨files, handed⟩, passed⟩
    obtain ⟨map, ran⟩ := (processed files handed).mpr passed
    exact ⟨map, files, handed, ran⟩

end

/-! ## Two directories -/

/-- A disk without sources where every file can be written. -/
def emptyDisk : JniSources where
  isPresent _ := false
  textLines _ := []
  tokens _ := none
  opens _ := true

/-- A directory with a hidden file, with endings that begin alike and with a name
of several dots. -/
def jniDirectory : List Entry :=
  [.file (.of "init.c"), .file (.of "init.cc"), .file (.of ".h"),
    .dir (.of "media.h") [.file (.of "jni.tar.h"), .file (.of "Media.java")], .special (.of "old.c")]

theorem jniDirectory_wellNamed : WellNamed jniDirectory := by
  refine .mk (by decide) (by decide) fun d files member => ?_
  obtain ⟨rfl, rfl⟩ : d = .of "media.h" ∧ files = [.file (.of "jni.tar.h"), .file (.of "Media.java")] := by
    simpa [jniDirectory] using member
  exact .mk (by decide) (by decide) fun d files none => by simp at none

theorem cpp_files_handed_on_once_jniDirectory :
    (fun _ => some (some jniDirectory) : Listing) (join (.of "core/jni") (.of "")) = some (some jniDirectory) ∧
    WellNamed jniDirectory ∧
    ((∃ files, handedOn emptyDisk (fun _ => some (some jniDirectory)) (.of "core/jni") = .ok files ∧ files.Nodup ∧
      ∀ path, path ∈ files.map FileName.of ↔ IsCppFile (join (.of "core/jni") (.of "")) jniDirectory path) ↔
      ∃ entries, some jniDirectory = some entries ∧ ¬ Locked entries ∧ emptyDisk.opens fileListPath = true ∧
        ∀ path, Listed (join (.of "core/jni") (.of "")) entries path → IsText path) ∧
    ∀ dirs name others other, FileAt jniDirectory dirs name → FileAt jniDirectory others other →
      filePath (join (.of "core/jni") (.of "")) dirs name = filePath (join (.of "core/jni") (.of "")) others other →
      dirs = others ∧ name = other :=
  ⟨rfl, jniDirectory_wellNamed,
    cpp_files_handed_on_once_iff emptyDisk _ _ (some jniDirectory) rfl jniDirectory_wellNamed⟩

example : handedOn emptyDisk (fun _ => some (some jniDirectory)) (.of "core/jni") =
    .ok ["core/jni/media.h/jni.tar.h", "core/jni/init.cc", "core/jni/init.c"] := by decide +kernel

/-- A source, and a Java file whose name has one byte of Latin-1, E9. -/
def latinDirectory : List Entry :=
  [.file (.of "init.c"), .file (FileName.of "Caf" ++ .surrogate 0x4E9 :: FileName.of ".java")]

theorem latinDirectory_wellNamed : WellNamed latinDirectory :=
  .mk (by decide) (by decide) fun d files none => by simp [latinDirectory] at none

/-- The source is not handed on either. -/
theorem latinDirectory_not_handed_on :
    handedOn emptyDisk (fun _ => some (some latinDirectory)) (.of "core/jni") = .error .unicodeEncodeError ∧
    IsCppFile (join (.of "core/jni") (.of "")) latinDirectory (.of "core/jni/init.c") ∧
    ¬ ∀ (sources : JniSources) (listing : Listing) (srcDir : FileName) (entries : List Entry),
      listing (join srcDir (.of "")) = some (some entries) → WellNamed entries →
      ∃ files, handedOn sources listing srcDir = .ok files ∧ files.Nodup ∧
        ∀ path, path ∈ files.map FileName.of ↔ IsCppFile (join srcDir (.of "")) entries path := by
  have fails : handedOn emptyDisk (fun _ => some (some latinDirectory)) (.of "core/jni") = .error .unicodeEncodeError := by
    decide +kernel
  refine ⟨fails, ⟨[], .of "init.c", .here List.mem_cons_self, by decide, by decide⟩, fun all => ?_⟩
  obtain ⟨files, handed, _⟩ := all emptyDisk (fun _ => some (some latinDirectory)) (.of "core/jni") latinDirectory rfl
    latinDirectory_wellNamed
  rw [fails] at handed
  cases handed

end JgreAnalysis.ScannedFiles
