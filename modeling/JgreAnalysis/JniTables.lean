import JgreAnalysis.CxxJniParser

/-! What the parser reads from the tokens of a file: when it ends, that it reads
back the tables that are written in the usual way, and what becomes of entries
that do not name three things. -/
namespace JgreAnalysis.JniTables
open CxxJniParser StatementCutter LastBindings

/-! ## The blocks of a stream -/

/-- The loop collects, in order, one block for each semicolon with a mention
since the semicolon before it. The block runs from the last such mention to the
semicolon, and what no semicolon ends gives none. -/
theorem jniTokens_blocks (tokens : List Token) :
    jniTokens tokens = (List.range tokens.length).filterMap (blockAt isMention isSemicolon tokens) ∧
    (∀ i, (∃ block, blockAt isMention isSemicolon tokens i = some block) ↔ ∃ before mention rest stop after,
      tokens = before ++ mention :: rest ++ stop :: after ∧ i = (before ++ mention :: rest).length ∧
      mention.spelling = jniNativeMethod ∧ (∀ tk ∈ rest, tk.spelling ≠ ";") ∧ stop.spelling = ";") ∧
    (∀ i block, blockAt isMention isSemicolon tokens i = some block ↔ ∃ before mention rest stop after,
      tokens = before ++ mention :: rest ++ stop :: after ∧ i = (before ++ mention :: rest).length ∧
      mention.spelling = jniNativeMethod ∧ (∀ tk ∈ rest, tk.spelling ≠ jniNativeMethod ∧ tk.spelling ≠ ";") ∧
      stop.spelling = ";" ∧ block = mention :: rest) ∧
    ∀ first unfinished, tokens = first ++ unfinished → (∀ tk ∈ unfinished, tk.spelling ≠ ";") →
      jniTokens tokens = jniTokens first := by
  refine ⟨cut_eq_blocks mention_not_semicolon tokens, fun i => ?_, fun i block => ?_, ?_⟩
  · simpa [isMention, isSemicolon] using blockAt_isSome mention_not_semicolon tokens i
  · simpa [isMention, isSemicolon, Quiet] using blockAt_eq_some mention_not_semicolon tokens i block
  · rintro first unfinished rfl unclosed
    exact cut_append_unclosed (by simpa [isSemicolon] using unclosed) first

example : jniTokens [punctuation ";", ⟨.identifier, jniNativeMethod⟩, punctuation "*", ⟨.identifier, jniNativeMethod⟩,
    ⟨.identifier, "gMethods"⟩, punctuation ";", punctuation ";", ⟨.identifier, jniNativeMethod⟩] =
      [[⟨.identifier, jniNativeMethod⟩, ⟨.identifier, "gMethods"⟩]] := by decide

/-! ## When the parser ends -/

/-- A mention of the type names nothing up to the next semicolon. -/
def NamesNothing (tokens : List Token) : Prop :=
  ∃ before mention rest stop after, tokens = before ++ mention :: rest ++ stop :: after ∧ isMention mention = true ∧
    (∀ tk ∈ rest, isSemicolon tk = false ∧ isItem tk = false) ∧ isSemicolon stop = true

/-- Of several mentions in a statement the last one is looked at. -/
theorem last_mention (mention : Token) (spelled : isMention mention = true) (rest : List Token) :
    ∃ before last after, mention :: rest = before ++ last :: after ∧ isMention last = true ∧
      ∀ tk ∈ after, isMention tk = false ∧ tk ∈ rest := by
  cases found : lastBlock isMention (mention :: rest) with
  | none => simp [(lastBlock_eq_none _).mp found mention List.mem_cons_self] at spelled
  | some block =>
    obtain ⟨before, last, after, split, opening, quiet, _⟩ := (lastBlock_eq_some _ block).mp found
    refine ⟨before, last, after, split, opening, fun tk member => ⟨quiet tk member, ?_⟩⟩
    cases before with
    | nil =>
      obtain ⟨rfl, rfl⟩ := List.cons.inj split
      exact member
    | cons first before =>
      obtain ⟨rfl, rfl⟩ := List.cons.inj split
      simp [member]

theorem nameless_block_iff (tokens : List Token) :
    (∃ block ∈ jniTokens tokens, items block = []) ↔ NamesNothing tokens := by
  simp only [jniTokens, mem_cut_iff mention_not_semicolon]
  constructor
  · rintro ⟨_, ⟨before, mention, rest, stop, after, split, spelled, quiet, closing, rfl⟩, nameless⟩
    refine ⟨before, mention, rest, stop, after, split, spelled, fun tk member => ⟨(quiet tk member).2, ?_⟩, closing⟩
    have unnamed := List.filter_eq_nil_iff.mp nameless tk (List.mem_cons_of_mem _ member)
    simpa using unnamed
  · rintro ⟨before, mention, rest, stop, after, rfl, spelled, unnamed, closing⟩
    obtain ⟨earlier, last, later, split, again, quiet⟩ := last_mention mention spelled rest
    refine ⟨last :: later, ⟨before ++ earlier, last, later, stop, after, by simp [split], again, ?_, closing, rfl⟩, ?_⟩
    · exact fun tk member => ⟨(quiet tk member).1, (unnamed tk (quiet tk member).2).1⟩
    · refine List.filter_eq_nil_iff.mpr (List.forall_mem_cons.mpr ⟨by simp [isItem, again], fun tk member => ?_⟩)
      simp [(unnamed tk (quiet tk member).2).2]

theorem passes_iff (sources : JniSources) (file : String) : Passes sources file ↔
    (fastCheck sources file = true →
      Legible ((sources.tokens file).getD []) ∧ ¬ NamesNothing (shownTokens sources file)) := by
  simp only [Passes, ← nameless_block_iff, not_exists, not_and]

/-- The parser ends without an exception exactly when all tokens are texts and
every mention of the type names something up to the next semicolon. -/
theorem process_ends_iff (file : String) (tokens : List ClangToken) :
    (∃ jniMap, process file tokens = .ok jniMap) ↔
      Legible tokens ∧ ¬ NamesNothing (tokens.map ClangToken.shown) := by
  rw [← nameless_block_iff]
  simp only [process_ok_iff, exists_and_left, exists_eq, and_true, not_exists, not_and]

/-- A declaration of the type: `struct JNINativeMethod;` -/
def forwardDeclaration : List Token := [⟨.keyword, "struct"⟩, ⟨.identifier, jniNativeMethod⟩, punctuation ";"]

theorem forwardDeclaration_fails : process "jni.h" (forwardDeclaration.map Token.clang) = .error .indexError ∧
    ¬ ∀ (file : String) (tokens : List ClangToken), ∃ jniMap, process file tokens = .ok jniMap := by
  have fails : process "jni.h" (forwardDeclaration.map Token.clang) = .error .indexError := by
    decide +kernel
  refine ⟨fails, fun ends => ?_⟩
  obtain ⟨jniMap, ended⟩ := ends "jni.h" (forwardDeclaration.map Token.clang)
  rw [fails] at ended
  cases ended

/-- A comment in Latin-1. -/
example : process "jni.h" [⟨.comment, ⟨#[0x2F, 0x2F, 0x20, 0xE9]⟩⟩] = .error .unicodeDecodeError := by decide +kernel

/-! ## Tables as they are written -/

/-- A table with a comma between its entries, and perhaps behind the last one. -/
structure JniTable where
  name : String
  entries : List JniEntry
  trailing : Bool := false
  deriving DecidableEq, Repr

/-- The tokens of the entries, separated by commas. -/
def separated (entries : List JniEntry) : List Token := [punctuation ","].intercalate (entries.map JniEntry.tokens)

/-- `JNINativeMethod name[] = { entries }` -/
def JniTable.tokens (t : JniTable) : List Token :=
  [⟨.identifier, jniNativeMethod⟩, ⟨.identifier, t.name⟩, punctuation "[", punctuation "]", punctuation "=",
    punctuation "\x7b"] ++ (separated t.entries ++ if t.trailing then [punctuation ","] else []) ++ [punctuation "\x7d"]

/-- No name in the table is the name of the type, or a semicolon. -/
def JniTable.Ordinary (t : JniTable) : Prop :=
  (t.name ≠ jniNativeMethod ∧ t.name ≠ ";") ∧ ∀ e ∈ t.entries, e.Ordinary

/-- A file with tables, each behind some other tokens, and more tokens at its
end. -/
def document (parts : List (List Token × JniTable)) (after : List Token) : List Token :=
  parts.flatMap (fun part => part.1 ++ part.2.tokens ++ [punctuation ";"]) ++ after

def documentEntries (parts : List (List Token × JniTable)) : List JniEntry := parts.flatMap (·.2.entries)

/-- Separators that name nothing leave what is named between them. -/
theorem filter_intercalate (p : α → Bool) (sep : List α) (silent : sep.filter p = []) (parts : List (List α)) :
    (sep.intercalate parts).filter p = parts.flatMap (List.filter p) := by
  induction parts with
  | nil => rfl
  | cons part parts ih =>
    cases parts with
    | nil => simp
    | cons next parts =>
      rw [List.intercalate_cons_cons, List.filter_append, List.filter_append, silent, ih, List.append_nil]
      rfl

theorem separated_quiet (entries : List JniEntry) (ordinary : ∀ e ∈ entries, e.Ordinary) :
    ∀ tk ∈ separated entries, isMention tk = false ∧ isSemicolon tk = false := by
  induction entries with
  | nil => simp [separated]
  | cons e entries ih =>
    obtain ⟨here, later⟩ := List.forall_mem_cons.mp ordinary
    have quiet := (e.tokens_items here).1
    cases entries with
    | nil => simpa [separated] using quiet
    | cons second entries =>
      have split : separated (e :: second :: entries) = e.tokens ++ [punctuation ","] ++ separated (second :: entries) := by
        simp [separated]
      rw [split]
      exact List.forall_mem_append.mpr ⟨List.forall_mem_append.mpr ⟨quiet, by decide⟩, ih later⟩

theorem separated_items (entries : List JniEntry) (ordinary : ∀ e ∈ entries, e.Ordinary) :
    (separated entries).filter isItem = entries.flatMap JniEntry.items := by
  rw [separated, filter_intercalate isItem _ (by simp [punctuation, isItem]), List.flatMap_map]
  exact List.flatMap_congr fun e member => (e.tokens_items (ordinary e member)).2

theorem JniTable.isTable (t : JniTable) (ordinary : t.Ordinary) : IsTable t.name t.entries t.tokens := by
  have quiet := separated_quiet t.entries ordinary.2
  refine isTable_of_written ordinary.1 (List.forall_mem_append.mpr ⟨quiet, ?_⟩) ?_
  · split
    · decide
    · simp
  · rw [List.filter_append, separated_items t.entries ordinary.2]
    split <;> simp [punctuation, isItem]

/-- A table behind other tokens is the next block. -/
theorem jniTokens_table {noise statement : List Token} (unmentioned : ∀ tk ∈ noise, isMention tk = false)
    (table : IsTable name entries statement) (after : List Token) :
    jniTokens (noise ++ statement ++ punctuation ";" :: after) = statement :: jniTokens after := by
  obtain ⟨mention, rest, rfl, spelled, quiet, _⟩ := table
  have unclosed : ∀ tk ∈ mention :: rest, isSemicolon tk = false :=
    List.forall_mem_cons.mpr ⟨mention_not_semicolon mention spelled, fun tk member => (quiet tk member).2⟩
  have last : lastBlock isMention (mention :: rest) = some (mention :: rest) :=
    (lastBlock_eq_some _ _).mpr ⟨[], mention, rest, rfl, spelled, fun tk member => (quiet tk member).1, rfl⟩
  rw [jniTokens, List.append_assoc, cut_idle _ unmentioned, cut_statement unclosed rfl (by decide), last]
  rfl

/-- The blocks of a file are its tables. -/
theorem jniTokens_document (parts : List (List Token × JniTable)) (after : List Token)
    (unmentioned : ∀ part ∈ parts, ∀ tk ∈ part.1, isMention tk = false) (ends : ∀ tk ∈ after, isMention tk = false)
    (ordinary : ∀ part ∈ parts, part.2.Ordinary) :
    jniTokens (document parts after) = parts.map fun part => part.2.tokens := by
  induction parts with
  | nil =>
    have idle := cut_idle isSemicolon ends []
    rw [List.append_nil] at idle
    exact idle
  | cons part parts ih =>
    obtain ⟨noise, noises⟩ := List.forall_mem_cons.mp unmentioned
    obtain ⟨table, tables⟩ := List.forall_mem_cons.mp ordinary
    have split : document (part :: parts) after =
        part.1 ++ part.2.tokens ++ punctuation ";" :: document parts after := by
      simp [document]
    rw [split, jniTokens_table noise (part.2.isTable table), ih noises tables, List.map_cons]

/-- From a file of tables the parser reads exactly the functions of all entries,
each with the Java name of its last entry. -/
theorem process_document (file : String) (parts : List (List Token × JniTable)) (after : List Token)
    (unmentioned : ∀ part ∈ parts, ∀ tk ∈ part.1, isMention tk = false) (ends : ∀ tk ∈ after, isMention tk = false)
    (ordinary : ∀ part ∈ parts, part.2.Ordinary) :
    ∃ jniMap, process file ((document parts after).map Token.clang) = .ok jniMap ∧
      (∀ k, k ∈ jniMap ↔ ∃ e ∈ documentEntries parts, e.cpp = k) ∧
      ∀ k target, jniMap.lookup k = some target ↔
        IsLast ((documentEntries parts).map fun e => (e.cpp, ⟨file, e.java⟩)) k target := by
  have assigned : (parts.map fun part => part.2.tokens).flatMap (blockPairs file) =
      (documentEntries parts).map fun e => (e.cpp, ⟨file, e.java⟩) := by
    rw [List.flatMap_map, documentEntries, List.map_flatMap]
    exact List.flatMap_congr fun part member => blockPairs_table file (part.2.isTable (ordinary part member))
  have named : ∀ block ∈ parts.map fun part => part.2.tokens, items block ≠ [] := by
    intro block member
    obtain ⟨part, listed, rfl⟩ := List.mem_map.mp member
    obtain ⟨mention, rest, split, spelled, _, found⟩ := part.2.isTable (ordinary part listed)
    rw [split, items, List.filter_cons_of_neg (by simp [isItem, spelled]), found]
    exact List.cons_ne_nil _ _
  have lookups (k : String) (target : JniTarget) : (assignAll ∅ ((documentEntries parts).map fun e =>
      (e.cpp, (⟨file, e.java⟩ : JniTarget)))).lookup k = some target ↔
      IsLast ((documentEntries parts).map fun e => (e.cpp, ⟨file, e.java⟩)) k target :=
    (lookup_assignAll ∅ _ k target).trans (or_iff_left (by simp))
  refine ⟨_, ?_, fun k => ?_, lookups⟩
  · rw [process_ok_iff, shown_clang, jniTokens_document parts after unmentioned ends ordinary, assigned]
    exact ⟨legible_clang _, named, rfl⟩
  · rw [← AList.lookup_isSome, Option.isSome_iff_exists]
    simp only [lookups, exists_isLast_iff]
    simp

/-- Two tables with one function in both, and other statements around them. -/
def readerParts : List (List Token × JniTable) :=
  [([⟨.keyword, "static"⟩, ⟨.keyword, "const"⟩],
      ⟨"gReader", [⟨"\"open\"", "\"()V\"", "init"⟩, ⟨"\"read\"", "\"()I\"", "read"⟩], false⟩),
    ([⟨.identifier, "open"⟩, punctuation "(", punctuation ")", punctuation ";"],
      ⟨"gWriter", [⟨"\"reopen\"", "\"()V\"", "init"⟩], true⟩)]

theorem process_document_readerParts :
    (∀ part ∈ readerParts, ∀ tk ∈ part.1, isMention tk = false) ∧
    (∀ tk ∈ [punctuation ";"], isMention tk = false) ∧ (∀ part ∈ readerParts, part.2.Ordinary) ∧
    ∃ jniMap, process "io.cpp" ((document readerParts [punctuation ";"]).map Token.clang) = .ok jniMap ∧
      (∀ k, k ∈ jniMap ↔ ∃ e ∈ documentEntries readerParts, e.cpp = k) ∧
      ∀ k target, jniMap.lookup k = some target ↔
        IsLast ((documentEntries readerParts).map fun e => (e.cpp, ⟨"io.cpp", e.java⟩)) k target := by
  have unmentioned : ∀ part ∈ readerParts, ∀ tk ∈ part.1, isMention tk = false := by decide
  have ends : ∀ tk ∈ [punctuation ";"], isMention tk = false := by decide
  have ordinary : ∀ part ∈ readerParts, part.2.Ordinary := by
    simp [readerParts, JniTable.Ordinary, JniEntry.Ordinary, jniNativeMethod]
  exact ⟨unmentioned, ends, ordinary, process_document "io.cpp" readerParts _ unmentioned ends ordinary⟩

example : (process "io.cpp" ((document readerParts []).map Token.clang)).map (·.lookup "init") =
    .ok (some ⟨"io.cpp", "\"reopen\""⟩) := by decide +kernel

/-! ## Entries that do not name three things -/

def braced (e : List Token) : List Token := punctuation "\x7b" :: e ++ [punctuation "\x7d"]

/-- The block of a table whose entries are any tokens in braces, with commas
between them and perhaps behind the last one. -/
def tableBlock (header : List Token) (entries : List (List Token)) (trailing : Bool) : List Token :=
  header ++ [punctuation ","].intercalate (entries.map braced) ++ (if trailing then [punctuation ","] else []) ++
    [punctuation "\x7d"]

/-- What the entries name, each item with the number of its entry. -/
def labelled : ℕ → List (List Token) → List (ℕ × Token)
  | _, [] => []
  | i, e :: entries => (items e).map (i, ·) ++ labelled (i + 1) entries

/-- What stands behind the array: what else is named before the entries, with
the number zero, and the items of the entries from number one on. -/
def behindArray (size : List Token) (entries : List (List Token)) : List (ℕ × Token) :=
  size.map (0, ·) ++ labelled 1 entries

def triples {α : Type} : List α → List (α × α × α)
  | a :: b :: c :: rest => (a, b, c) :: triples rest
  | _ => []

/-- The triples of items that are written to the map, none unless all items come
in threes. -/
def written (size : List Token) (entries : List (List Token)) : List ((ℕ × Token) × (ℕ × Token) × (ℕ × Token)) :=
  if (behindArray size entries).length % 3 = 0 then triples (behindArray size entries) else []

/-- The assignment of a triple: its first item is the Java name, its last one the
C++ function. -/
def assignment (src : String) (t : (ℕ × Token) × (ℕ × Token) × (ℕ × Token)) : String × JniTarget :=
  (t.2.2.2.spelling, ⟨src, t.1.2.spelling⟩)

theorem jniPairs_triples (src : String) (named : List (ℕ × Token)) :
    jniPairs src (named.map Prod.snd) = (triples named).map (assignment src) := by
  induction named using triples.induct with
  | case1 a b c rest ih => simp [jniPairs, triples, assignment, ih]
  | case2 named short =>
    match named, short with
    | [], _ | [_], _ | [_, _], _ => rfl
    | a :: b :: c :: rest, short => exact absurd rfl (short a b c rest)

theorem labelled_items (i : ℕ) (entries : List (List Token)) : (labelled i entries).map Prod.snd = entries.flatMap items := by
  induction entries generalizing i with
  | nil => rfl
  | cons e entries ih => simp [labelled, ih, Function.comp_def]

theorem behindArray_items (size : List Token) (entries : List (List Token)) :
    (behindArray size entries).map Prod.snd = size ++ entries.flatMap items := by
  simp [behindArray, labelled_items, Function.comp_def]

/-- Braces and commas name nothing. -/
theorem tableBlock_items (header : List Token) (entries : List (List Token)) (trailing : Bool) :
    items (tableBlock header entries trailing) = items header ++ entries.flatMap items := by
  have inner : items ([punctuation ","].intercalate (entries.map braced)) = entries.flatMap items := by
    rw [items, filter_intercalate isItem _ (by simp [punctuation, isItem]), List.flatMap_map]
    exact List.flatMap_congr fun e _ => by simp [braced, items, punctuation, isItem]
  have comma : items (if trailing then [punctuation ","] else []) = [] := by
    cases trailing <;> simp [items, punctuation, isItem]
  have closing : items [punctuation "\x7d"] = [] := by simp [items, punctuation, isItem]
  simp only [items] at inner comma closing
  simp only [items, tableBlock, List.filter_append, inner, comma, closing, List.append_nil]

/-- A table writes the triples of what is named behind its array. -/
theorem extract_written (src : String) (jniMap : JniMap) (array : items header = name :: size)
    (entries : List (List Token)) (trailing : Bool) : extractJniBlock src jniMap (tableBlock header entries trailing) =
      .ok (assignAll jniMap ((written size entries).map (assignment src))) := by
  have named : items (tableBlock header entries trailing) = name :: (behindArray size entries).map Prod.snd := by
    rw [tableBlock_items, behindArray_items, array]
    rfl
  have pairs : blockPairs src (tableBlock header entries trailing) = (written size entries).map (assignment src) := by
    simp only [blockPairs, named, List.length_map, written]
    by_cases threes : (behindArray size entries).length % 3 = 0
    · rw [if_neg (by omega), if_pos threes, jniPairs_triples]
    · rw [if_pos (by omega), if_neg threes, List.map_nil]
  rw [extractJniBlock_eq (by rw [named]; exact List.cons_ne_nil _ _), pairs]

/-- The Java name and the function of the triple come from one entry. -/
def OneEntry (t : (ℕ × Token) × (ℕ × Token) × (ℕ × Token)) : Prop := 0 < t.1.1 ∧ t.1.1 = t.2.2.1

theorem label_ge {i : ℕ} {entries : List (List Token)} (member : item ∈ labelled i entries) : i ≤ item.1 := by
  induction entries generalizing i with
  | nil => cases member
  | cons e entries ih =>
    rcases List.mem_append.mp member with here | later
    · obtain ⟨_, _, rfl⟩ := List.mem_map.mp here
      exact le_rfl
    · exact Nat.le_of_succ_le (ih later)

theorem not_oneEntry {a b c : ℕ × Token} (own : a.1 = i) (later : i < c.1) : ¬ OneEntry (a, b, c) := by
  rintro ⟨_, same⟩
  have equal : a.1 = c.1 := same
  omega

/-- Items of one entry, with those of later entries behind them: as long as every
triple stays in one entry, the first ones come in threes, and so the later ones
are grouped by themselves. -/
theorem oneEntry_append (i : ℕ) (entry : 0 < i) (first rest : List (ℕ × Token)) (own : ∀ item ∈ first, item.1 = i)
    (later : ∀ item ∈ rest, i < item.1) (whole : (first ++ rest).length % 3 = 0) :
    (∀ t ∈ triples (first ++ rest), OneEntry t) ↔ first.length % 3 = 0 ∧ ∀ t ∈ triples rest, OneEntry t := by
  induction first using triples.induct with
  | case1 a b c first ih =>
    obtain ⟨ofA, ofB, ofC, others⟩ : a.1 = i ∧ b.1 = i ∧ c.1 = i ∧ ∀ item ∈ first, item.1 = i := by simpa using own
    have inner := ih others (by simp at whole ⊢; omega)
    have here : OneEntry (a, b, c) := ⟨ofA ▸ entry, ofA.trans ofC.symm⟩
    simp only [List.cons_append, triples, List.forall_mem_cons, here, true_and, inner, List.length_cons]
    refine and_congr_left fun _ => ?_
    omega
  | case2 first short =>
    match first, short with
    | [], _ => simp
    | [a], _ =>
      match rest, whole with
      | b :: c :: rest, _ => simp [triples, not_oneEntry (own a (by simp)) (later c (by simp))]
    | [a, b], _ =>
      match rest, whole with
      | c :: rest, _ => simp [triples, not_oneEntry (own a (by simp)) (later c (by simp))]
    | a :: b :: c :: rest, short => exact absurd rfl (short a b c rest)

theorem oneEntry_iff (i : ℕ) (entry : 0 < i) (entries : List (List Token)) (whole : (labelled i entries).length % 3 = 0) :
    (∀ t ∈ triples (labelled i entries), OneEntry t) ↔ ∀ e ∈ entries, (items e).length % 3 = 0 := by
  induction entries generalizing i with
  | nil => simp [labelled, triples]
  | cons e entries ih =>
    have own : ∀ item ∈ (items e).map (i, ·), item.1 = i := by simp
    have later : ∀ item ∈ labelled (i + 1) entries, i < item.1 := fun item member => label_ge member
    rw [labelled, oneEntry_append i entry _ _ own later whole, List.length_map, List.forall_mem_cons]
    refine and_congr_right fun threes => ih (i + 1) (Nat.succ_pos i) ?_
    rw [labelled, List.length_append, List.length_map] at whole
    omega

/-- What is named before the entries begins the first triple. -/
theorem not_oneEntry_size (item : Token) (size : List Token) (entries : List (List Token))
    (whole : (behindArray (item :: size) entries).length % 3 = 0) :
    ¬ ∀ t ∈ triples (behindArray (item :: size) entries), OneEntry t := by
  have first : ∃ rest, behindArray (item :: size) entries = (0, item) :: rest := ⟨_, rfl⟩
  obtain ⟨rest, split⟩ := first
  rw [split] at whole ⊢
  match rest, whole with
  | b :: c :: rest, _ =>
    intro all
    exact absurd (all ((0, item), b, c) List.mem_cons_self).1 (Nat.lt_irrefl 0)

/-- A table writes pairs of one entry only, exactly when what is named behind its
array does not come in threes at all, or it is named in entries of which every
single one comes in threes. -/
theorem written_from_one_entry_iff (src : String) (jniMap : JniMap) (header size : List Token) (name : Token)
    (array : items header = name :: size) (entries : List (List Token)) (trailing : Bool) :
    extractJniBlock src jniMap (tableBlock header entries trailing) =
      .ok (assignAll jniMap ((written size entries).map (assignment src))) ∧
    ((∀ t ∈ written size entries, OneEntry t) ↔
      (size ++ entries.flatMap items).length % 3 ≠ 0 ∨ (size = [] ∧ ∀ e ∈ entries, (items e).length % 3 = 0)) := by
  refine ⟨extract_written src jniMap array entries trailing, ?_⟩
  rw [← behindArray_items, List.length_map, written]
  by_cases whole : (behindArray size entries).length % 3 = 0
  · rw [if_pos whole]
    cases size with
    | nil =>
      have unsized : behindArray [] entries = labelled 1 entries := rfl
      rw [unsized] at whole ⊢
      rw [oneEntry_iff 1 Nat.one_pos entries whole]
      simp [whole]
    | cons item size => simpa [whole] using not_oneEntry_size item size entries whole
  · simp [whole]

/-- `JNINativeMethod gMethods[] =` -/
def methodsHeader : List Token :=
  [⟨.identifier, jniNativeMethod⟩, ⟨.identifier, "gMethods"⟩, punctuation "[", punctuation "]", punctuation "=",
    punctuation "\x7b"]

/-- `"java", "()V", (void *) android::cpp` -/
def qualifiedEntry (java cpp : String) : List Token :=
  [⟨.literal, java⟩, punctuation ",", ⟨.literal, "\"()V\""⟩, punctuation ",", punctuation "(", ⟨.keyword, "void"⟩,
    punctuation "*", punctuation ")", ⟨.identifier, "android"⟩, punctuation "::", ⟨.identifier, cpp⟩]

def qualifiedEntries : List (List Token) :=
  [qualifiedEntry "\"open\"" "open", qualifiedEntry "\"read\"" "read", qualifiedEntry "\"close\"" "close"]

theorem written_from_one_entry_iff_qualified : items methodsHeader = [⟨.identifier, "gMethods"⟩] ∧
    extractJniBlock "io.cpp" ∅ (tableBlock methodsHeader qualifiedEntries true) =
      .ok (assignAll ∅ ((written [] qualifiedEntries).map (assignment "io.cpp"))) ∧
    ((∀ t ∈ written [] qualifiedEntries, OneEntry t) ↔
      ([] ++ qualifiedEntries.flatMap items).length % 3 ≠ 0 ∨
        (([] : List Token) = [] ∧ ∀ e ∈ qualifiedEntries, (items e).length % 3 = 0)) :=
  have array : items methodsHeader = [⟨.identifier, "gMethods"⟩] := by decide
  ⟨array, written_from_one_entry_iff "io.cpp" ∅ methodsHeader [] _ array qualifiedEntries true⟩

/-- Three entries of four items each are four triples: the function of the first
entry becomes the Java method of the second one's signature. -/
theorem qualifiedEntries_mixed :
    (written [] qualifiedEntries).map (assignment "io.cpp") =
      [("android", ⟨"io.cpp", "\"open\""⟩), ("\"()V\"", ⟨"io.cpp", "open"⟩), ("\"close\"", ⟨"io.cpp", "android"⟩),
        ("close", ⟨"io.cpp", "\"()V\""⟩)] ∧
    ¬ ∀ entries : List (List Token), ∀ t ∈ written [] entries, OneEntry t := by
  refine ⟨by decide +kernel, fun all => ?_⟩
  have second := all qualifiedEntries ((1, ⟨.identifier, "open"⟩), (2, ⟨.literal, "\"read\""⟩), (2, ⟨.literal, "\"()V\""⟩))
    (by decide +kernel)
  have same : (1 : ℕ) = 2 := second.2
  omega

end JgreAnalysis.JniTables
