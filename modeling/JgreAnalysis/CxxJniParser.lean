import JgreAnalysis.LastBindings
import JgreAnalysis.LoopLaws
import JgreAnalysis.NativeCallGraph
import JgreAnalysis.StatementCutter

/-! The parser of JNI tables. It works on the tokens of a file: every statement
that mentions `JNINativeMethod` is cut out, and what is named in it is taken in
threes. -/
namespace JgreAnalysis.CxxJniParser
open NativeCallGraph StatementCutter LastBindings

inductive TokenKind where
  | punctuation
  | keyword
  | identifier
  | literal
  | comment
  deriving DecidableEq, Repr

structure Token where
  kind : TokenKind
  spelling : String
  deriving DecidableEq, Repr

/-- The exceptions that end the search for tables: `pop` on an empty list, a text
that cannot be decoded or encoded, and what the system refuses. -/
inductive JniError where
  | indexError
  | unicodeDecodeError
  | unicodeEncodeError
  | osError
  deriving DecidableEq, Repr

/-- A token as libclang gives it, with the bytes of its text. -/
structure ClangToken where
  kind : TokenKind
  bytes : ByteArray

/-- The binding decodes the bytes when the spelling is read. -/
def ClangToken.spelling (tk : ClangToken) : Except JniError String :=
  match String.fromUTF8? tk.bytes with
  | some text => pure text
  | none => throw .unicodeDecodeError

/-- What the map tells of a C++ function. -/
structure JniTarget where
  cpp : String
  java : String
  deriving DecidableEq, Repr

abbrev JniMap := Bindings String JniTarget

/-- The files as the parser meets them: the lines that can be decoded, and the
tokens where libclang parses the file. Some files can be opened for writing. -/
structure JniSources where
  isPresent : String → Bool
  textLines : String → List String
  tokens : String → Option (List ClangToken)
  opens : String → Bool

def jniNativeMethod : String := "JNINativeMethod"

variable (sources : JniSources)

/-- Whether a line names the type. A line that cannot be decoded ends the look. -/
def fastCheck (file : String) : Bool :=
  sources.isPresent file && (sources.textLines file).any (contains · jniNativeMethod)

def isMention (tk : Token) : Bool := tk.spelling == jniNativeMethod

def isSemicolon (tk : Token) : Bool := tk.spelling == ";"

/-- The blocks that the loop over the tokens collects. -/
def jniTokens (tokens : List Token) : List (List Token) := cut isMention isSemicolon tokens

def isItem (tk : Token) : Bool := (tk.kind == .identifier || tk.kind == .literal) && !isMention tk

def items (tokens : List Token) : List Token := tokens.filter isItem

/-- Items in threes: the Java name, its signature and the C++ function. -/
def jniPairs (src : String) : List Token → List (String × JniTarget)
  | funcName :: _ :: cppName :: rest => (cppName.spelling, ⟨src, funcName.spelling⟩) :: jniPairs src rest
  | _ => []

def extractJniBlock (src : String) (jniMap : JniMap) (tokens : List Token) : Except JniError JniMap :=
  match items tokens with
  | [] => throw .indexError
  | _ :: items =>
    let t := items.length / 3
    if t * 3 ≠ items.length then pure jniMap
    else pure (assignAll jniMap (jniPairs src items))

/-- The loop reads the spelling of every token before a block is looked at. -/
def readTokens (tokens : List ClangToken) : Except JniError (List Token) :=
  tokens.mapM fun tk => do pure ⟨tk.kind, ← tk.spelling⟩

/-- `__process`, over the tokens that libclang gives. -/
def process (file : String) (tokens : List ClangToken) : Except JniError JniMap := do
  let tokens ← readTokens tokens
  (jniTokens tokens).foldlM (extractJniBlock file) ∅

/-- A parser that has looked at its file, with the map it has filled. -/
def parseJni (file : String) : Except JniError JniMap :=
  if fastCheck sources file then
    match sources.tokens file with
    | none => pure ∅
    | some tokens => process file tokens
  else pure ∅

/-! ## Texts and bytes -/

/-- The token that has the text. -/
def Token.clang (tk : Token) : ClangToken := ⟨tk.kind, tk.spelling.toUTF8⟩

/-- The token as an editor shows it, with a replacement for what is no text. -/
def ClangToken.shown (tk : ClangToken) : Token := ⟨tk.kind, (String.fromUTF8? tk.bytes).getD "\uFFFD"⟩

def Legible (tokens : List ClangToken) : Prop := ∀ tk ∈ tokens, tk.bytes.IsValidUTF8

instance (tokens : List ClangToken) : Decidable (Legible tokens) :=
  inferInstanceAs (Decidable (∀ tk ∈ tokens, tk.bytes.IsValidUTF8))

theorem clang_valid (tk : Token) : tk.clang.bytes.IsValidUTF8 := tk.spelling.isValidUTF8

theorem clang_shown (tk : Token) : tk.clang.shown = tk := by
  have decoded : String.fromUTF8? tk.spelling.toUTF8 = some tk.spelling := by
    rw [String.fromUTF8?, String.toUTF8_eq_toByteArray, dif_pos tk.spelling.isValidUTF8]
    rfl
  rw [ClangToken.shown, Token.clang, decoded]
  rfl

theorem legible_clang (tokens : List Token) : Legible (tokens.map Token.clang) := by
  intro tk member
  obtain ⟨text, _, rfl⟩ := List.mem_map.mp member
  exact clang_valid text

theorem shown_clang (tokens : List Token) : (tokens.map Token.clang).map ClangToken.shown = tokens := by
  rw [List.map_map]
  exact List.map_id'' clang_shown tokens

/-- A spelling is read where the bytes are text. -/
theorem spelling_ok_iff (tk : ClangToken) (text : String) :
    tk.spelling = .ok text ↔ tk.bytes.IsValidUTF8 ∧ tk.shown.spelling = text := by
  by_cases valid : tk.bytes.IsValidUTF8
  · simp [ClangToken.spelling, ClangToken.shown, String.fromUTF8?, valid, pure, Except.pure]
  · simp [ClangToken.spelling, String.fromUTF8?, valid, throw, throwThe, MonadExceptOf.throw]

theorem readTokens_ok_iff (tokens : List ClangToken) (texts : List Token) :
    readTokens tokens = .ok texts ↔ Legible tokens ∧ texts = tokens.map ClangToken.shown := by
  refine LoopLaws.mapM_good_iff (fun tk text => ?_) tokens texts
  simp only [LoopLaws.bind_ok, spelling_ok_iff, and_assoc, exists_and_left, exists_eq_left', pure, Except.pure, Except.ok.injEq]
  rfl

/-! ## Tables -/

/-- One entry of a table. -/
structure JniEntry where
  java : String
  signature : String
  cpp : String
  deriving DecidableEq, Repr

/-- What an entry names: two literals and an identifier. -/
def JniEntry.items (e : JniEntry) : List Token :=
  [⟨.literal, e.java⟩, ⟨.literal, e.signature⟩, ⟨.identifier, e.cpp⟩]

/-- A statement that defines a table: after the type it names the array, and then
an entry after the other. Punctuation, keywords and comments may stand between
them. -/
def IsTable (name : String) (entries : List JniEntry) (statement : List Token) : Prop :=
  ∃ mention rest, statement = mention :: rest ∧ isMention mention = true ∧
    (∀ tk ∈ rest, isMention tk = false ∧ isSemicolon tk = false) ∧
    rest.filter isItem = ⟨.identifier, name⟩ :: entries.flatMap JniEntry.items

def punctuation (spelling : String) : Token := ⟨.punctuation, spelling⟩

/-- `{ "java", "signature", (void *) cpp }` -/
def JniEntry.tokens (e : JniEntry) : List Token :=
  [punctuation "\x7b", ⟨.literal, e.java⟩, punctuation ",", ⟨.literal, e.signature⟩, punctuation ",", punctuation "(",
    ⟨.keyword, "void"⟩, punctuation "*", punctuation ")", ⟨.identifier, e.cpp⟩, punctuation "\x7d"]

/-- No text of the entry is one that the parser looks for. -/
def JniEntry.Ordinary (e : JniEntry) : Prop :=
  ∀ text ∈ [e.java, e.signature, e.cpp], text ≠ jniNativeMethod ∧ text ≠ ";"

/-! ## What a file records -/

variable {sources}

/-- An entry stays in its statement, and names what it should. -/
theorem JniEntry.tokens_items (e : JniEntry) (ordinary : e.Ordinary) :
    (∀ tk ∈ e.tokens, isMention tk = false ∧ isSemicolon tk = false) ∧ e.tokens.filter isItem = e.items := by
  obtain ⟨java, signature, cpp⟩ : (e.java ≠ jniNativeMethod ∧ e.java ≠ ";") ∧
      (e.signature ≠ jniNativeMethod ∧ e.signature ≠ ";") ∧ (e.cpp ≠ jniNativeMethod ∧ e.cpp ≠ ";") := by
    simpa [JniEntry.Ordinary] using ordinary
  constructor
  · simp [JniEntry.tokens, punctuation, isMention, isSemicolon, java, signature, cpp]
    decide
  · simp [JniEntry.tokens, JniEntry.items, punctuation, isItem, isMention, java, signature, cpp]

/-- Between the beginning of a table and its end only the array and the entries
are named. -/
theorem isTable_of_written (named : name ≠ jniNativeMethod ∧ name ≠ ";") {written : List Token}
    (quiet : ∀ tk ∈ written, isMention tk = false ∧ isSemicolon tk = false)
    (listed : written.filter isItem = entries.flatMap JniEntry.items) :
    IsTable name entries ([⟨.identifier, jniNativeMethod⟩, ⟨.identifier, name⟩, punctuation "[", punctuation "]",
      punctuation "=", punctuation "\x7b"] ++ written ++ [punctuation "\x7d"]) := by
  refine ⟨_, _, rfl, by simp [isMention], ?_, ?_⟩
  · have opening : ∀ tk ∈ [⟨.identifier, name⟩, punctuation "[", punctuation "]", punctuation "=", punctuation "\x7b"],
        isMention tk = false ∧ isSemicolon tk = false := by
      simp [punctuation, isMention, isSemicolon, named]
      decide
    have closing : ∀ tk ∈ [punctuation "\x7d"], isMention tk = false ∧ isSemicolon tk = false := by
      decide
    exact List.forall_mem_append.mpr ⟨List.forall_mem_append.mpr ⟨opening, quiet⟩, closing⟩
  · change (([_, _, _, _, _] ++ _) ++ [_]).filter isItem = _
    rw [List.filter_append, List.filter_append, listed]
    simp [punctuation, isItem, isMention, named]

/-- The pairs of a block, none where its items do not come in threes. -/
def blockPairs (src : String) (tokens : List Token) : List (String × JniTarget) :=
  match items tokens with
  | [] => []
  | _ :: items => if items.length / 3 * 3 ≠ items.length then [] else jniPairs src items

theorem extractJniBlock_eq (named : items tokens ≠ []) (src : String) (jniMap : JniMap) :
    extractJniBlock src jniMap tokens = .ok (assignAll jniMap (blockPairs src tokens)) := by
  unfold extractJniBlock blockPairs
  cases found : items tokens with
  | nil => exact absurd found named
  | cons array items =>
    by_cases uneven : items.length / 3 * 3 = items.length
    · simp only [uneven, ne_eq, not_true_eq_false, if_false]
      rfl
    · simp only [uneven, ne_eq, not_false_eq_true, if_true]
      rfl

variable (sources)

/-- The tokens of a file as an editor shows them. -/
def shownTokens (file : String) : List Token := ((sources.tokens file).getD []).map ClangToken.shown

/-- What a file assigns, in order. -/
def filePairs (file : String) : List (String × JniTarget) :=
  if fastCheck sources file then (jniTokens (shownTokens sources file)).flatMap (blockPairs file) else []

/-- The parser gets through the file: it does not look at it, or its tokens are
texts and every statement that mentions the type names something. -/
def Passes (file : String) : Prop :=
  fastCheck sources file = true → Legible ((sources.tokens file).getD []) ∧
    ∀ block ∈ jniTokens (shownTokens sources file), items block ≠ []

variable {sources}

theorem foldBlocks_ok_iff (src : String) (jniMap result : JniMap) (blocks : List (List Token)) :
    blocks.foldlM (extractJniBlock src) jniMap = .ok result ↔
      (∀ block ∈ blocks, items block ≠ []) ∧ result = assignAll jniMap (blocks.flatMap (blockPairs src)) := by
  induction blocks generalizing jniMap with
  | nil =>
    constructor
    · intro ran
      cases ran
      exact ⟨by simp, rfl⟩
    · rintro ⟨_, rfl⟩
      rfl
  | cons block blocks ih =>
    rw [List.foldlM_cons, List.forall_mem_cons]
    by_cases nameless : items block = []
    · have failed : extractJniBlock src jniMap block = .error .indexError := by
        rw [extractJniBlock, nameless]
        rfl
      rw [failed]
      simp [nameless, bind, Except.bind]
    · rw [extractJniBlock_eq nameless, List.flatMap_cons, assignAll_append]
      refine (ih (assignAll jniMap (blockPairs src block))).trans (and_congr ?_ Iff.rfl)
      exact (and_iff_right nameless).symm

theorem process_ok_iff (file : String) (tokens : List ClangToken) (jniMap : JniMap) :
    process file tokens = .ok jniMap ↔
      Legible tokens ∧ (∀ block ∈ jniTokens (tokens.map ClangToken.shown), items block ≠ []) ∧
        jniMap = assignAll ∅ ((jniTokens (tokens.map ClangToken.shown)).flatMap (blockPairs file)) := by
  simp only [process, LoopLaws.bind_ok, readTokens_ok_iff, and_assoc, exists_and_left, exists_eq_left, foldBlocks_ok_iff]

/-- A parser ends with the assignments of its file where it gets through it. -/
theorem parseJni_ok_iff (file : String) (jniMap : JniMap) :
    parseJni sources file = .ok jniMap ↔ Passes sources file ∧ jniMap = assignAll ∅ (filePairs sources file) := by
  have nothing : (pure ∅ : Except JniError JniMap) = .ok jniMap ↔ jniMap = ∅ := by
    simp [pure, Except.pure, eq_comm]
  unfold parseJni Passes filePairs shownTokens
  by_cases checked : fastCheck sources file = true
  · cases parsed : sources.tokens file with
    | none => simp [checked, nothing, jniTokens, cut, Cutting.run, assignAll, Legible]
    | some tokens => simp [checked, process_ok_iff, and_assoc]
  · simp [checked, nothing, assignAll]

theorem jniPairs_entries (src : String) (entries : List JniEntry) :
    jniPairs src (entries.flatMap JniEntry.items) = entries.map fun e => (e.cpp, ⟨src, e.java⟩) := by
  induction entries with
  | nil => rfl
  | cons e entries ih =>
    rw [List.flatMap_cons, List.map_cons, ← ih]
    rfl

theorem length_items (entries : List JniEntry) : (entries.flatMap JniEntry.items).length = 3 * entries.length := by
  induction entries with
  | nil => rfl
  | cons e entries ih =>
    rw [List.flatMap_cons, List.length_append, ih, List.length_cons, JniEntry.items]
    simp only [List.length_cons, List.length_nil]
    omega

/-- A table assigns its entries, whatever stands around them. -/
theorem blockPairs_table (src : String) (table : IsTable name entries statement) :
    blockPairs src statement = entries.map fun e => (e.cpp, ⟨src, e.java⟩) := by
  obtain ⟨mention, rest, rfl, spelled, _, named⟩ := table
  have found : items (mention :: rest) = ⟨.identifier, name⟩ :: entries.flatMap JniEntry.items := by
    rw [items, List.filter_cons_of_neg (by simp [isItem, spelled]), named]
  have threes := length_items entries
  simp only [blockPairs, found]
  rw [if_neg (by omega), jniPairs_entries]

theorem mention_not_semicolon (tk : Token) (mention : isMention tk = true) : isSemicolon tk = false := by
  have spelled : tk.spelling = jniNativeMethod := by simpa [isMention] using mention
  simp [isSemicolon, spelled, jniNativeMethod]

end JgreAnalysis.CxxJniParser
