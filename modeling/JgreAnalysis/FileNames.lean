import Mathlib.Data.List.DropRight
import Mathlib.Data.List.Forall2
import JgreAnalysis.SeparatedNames

/-! Names of files and the paths that are joined from them. What a disk has for a
name need not be text, and can then be held but not encoded. -/
namespace JgreAnalysis.FileNames
open SeparatedNames

/-- A code point of a Python text. Lone surrogates stand for what could not be
decoded. -/
inductive CodePoint where
  | char (c : Char)
  | surrogate (n : Fin 2048)
  deriving DecidableEq, Repr

/-- A name or a path. -/
abbrev FileName := List CodePoint

def FileName.of (text : String) : FileName := text.toList.map .char

/-- No encoding takes a lone surrogate. -/
def CodePoint.encode : CodePoint → Option Char
  | .char c => some c
  | .surrogate _ => none

/-- `encode("utf-8")`, given as the text whose bytes it makes. -/
def encode (name : FileName) : Option String := (name.mapM CodePoint.encode).map String.ofList

/-- `os.path.join` of two parts. -/
def joined [DecidableEq α] (slash : α) (path name : List α) : List α :=
  if name.head? = some slash then name
  else if path = [] ∨ path.getLast? = some slash then path ++ name
  else path ++ slash :: name

def join (path name : FileName) : FileName := joined (.char '/') path name

def joinText (path name : String) : String := String.ofList (joined '/' path.toList name.toList)

/-- `os.path.splitext` of the name of a file. Dots at its beginning do not count,
so the name is not split unless something else stands before the last dot. -/
def splitext (name : FileName) : FileName × FileName :=
  let stem := (name.rdropWhile (· ≠ .char '.')).dropLast
  if stem.any (· ≠ .char '.') then (stem, .char '.' :: name.rtakeWhile (· ≠ .char '.'))
  else (name, [])

/-- `endswith` of a path. -/
def endsIn (path ending : FileName) : Bool := ending.isSuffixOf path

/-! ## Texts -/

theorem of_injective : Function.Injective FileName.of := by
  intro first second same
  exact String.toList_inj.mp (List.map_injective_iff.mpr (fun _ _ equal => CodePoint.char.inj equal) same)

theorem encode_eq_some (name : FileName) (text : String) : encode name = some text ↔ name = .of text := by
  have listed (chars : List Char) : name.mapM CodePoint.encode = some chars ↔ name = chars.map .char := by
    induction name generalizing chars with
    | nil => simp [eq_comm]
    | cons c name ih =>
      rw [List.mapM_cons]
      cases c with
      | char c => cases chars <;> simp [CodePoint.encode, Option.bind_eq_some_iff, ih, and_comm]
      | surrogate n => cases chars <;> simp [CodePoint.encode]
  simp only [encode, Option.map_eq_some_iff, listed, FileName.of]
  constructor
  · rintro ⟨chars, rfl, rfl⟩
    simp
  · rintro rfl
    exact ⟨text.toList, rfl, by simp⟩

/-- The name has no lone surrogate. -/
def IsText (name : FileName) : Prop := ∀ n, .surrogate n ∉ name

theorem isText_iff (name : FileName) : IsText name ↔ ∃ text, name = .of text := by
  constructor
  · intro text
    induction name with
    | nil => exact ⟨"", rfl⟩
    | cons c name ih =>
      obtain ⟨rest, rfl⟩ := ih fun n member => text n (List.mem_cons_of_mem _ member)
      cases c with
      | char c => exact ⟨String.ofList (c :: rest.toList), by simp [FileName.of]⟩
      | surrogate n => exact absurd List.mem_cons_self (text n)
  · rintro ⟨text, rfl⟩ n member
    simp [FileName.of] at member

/-! ## Paths -/

/-- A name that an entry of a directory can have. -/
def IsName (name : FileName) : Prop := name ≠ [] ∧ .char '/' ∉ name

instance (name : FileName) : Decidable (IsName name) := inferInstanceAs (Decidable (_ ∧ _))

/-- The path of a file, joined from the directories to it. -/
def filePath (pt : FileName) : List FileName → FileName → FileName
  | [], name => join pt name
  | d :: dirs, name => filePath (join pt d) dirs name

/-- What the path of a directory adds before a name. -/
def base (pt : FileName) : FileName := if pt = [] ∨ pt.getLast? = some (.char '/') then pt else pt ++ [.char '/']

theorem join_eq (pt : FileName) (named : IsName name) : join pt name = base pt ++ name := by
  have relative : name.head? ≠ some (.char '/') := fun first => named.2 (List.mem_of_head? first)
  unfold join joined base
  rw [if_neg relative]
  split <;> simp

/-- Behind a directory comes one separator. -/
theorem base_join (pt : FileName) (named : IsName d) : base (join pt d) = base pt ++ d ++ [.char '/'] := by
  have last : (join pt d).getLast? ≠ some (.char '/') := by
    rw [join_eq pt named, List.getLast?_append_of_ne_nil _ named.1]
    exact fun slash => named.2 (List.mem_of_getLast? slash)
  have filled : join pt d ≠ [] := by
    rw [join_eq pt named]
    exact List.append_ne_nil_of_right_ne_nil _ named.1
  rw [base, if_neg (by simp [last, filled]), join_eq pt named]

theorem filePath_eq (pt : FileName) (dirs : List FileName) (dirsNamed : ∀ d ∈ dirs, IsName d) (named : IsName name) :
    filePath pt dirs name = base pt ++ qualified [.char '/'] dirs name := by
  induction dirs generalizing pt with
  | nil => exact join_eq pt named
  | cons d dirs ih =>
    obtain ⟨here, below⟩ := List.forall_mem_cons.mp dirsNamed
    rw [filePath, ih _ below, base_join pt here, qualified_cons]
    simp

/-- Files at different places have different paths. -/
theorem filePath_injective (pt : FileName) (dirsNamed : ∀ d ∈ dirs, IsName d) (named : IsName name)
    (othersNamed : ∀ d ∈ others, IsName d) (otherNamed : IsName other)
    (same : filePath pt dirs name = filePath pt others other) : dirs = others ∧ name = other := by
  have slashless (name : FileName) (names : List FileName) (named : IsName name) (namesNamed : ∀ d ∈ names, IsName d) :
      ∀ text ∈ name :: names, .char '/' ∉ text :=
    fun text member => (List.forall_mem_cons.mpr ⟨named, namesNamed⟩ text member).2
  rw [filePath_eq pt dirs dirsNamed named, filePath_eq pt others othersNamed otherNamed, List.append_cancel_left_eq] at same
  exact qualified_injective (unmistakable_of_free _ (slashless other others otherNamed othersNamed))
    (unmistakable_of_free _ (slashless name dirs named dirsNamed)) same

/-! ## Extensions and endings -/

/-- An ending with one dot, at its beginning. -/
def IsExtension (ext : FileName) : Prop := ∃ tail, ext = .char '.' :: tail ∧ .char '.' ∉ tail

/-- A text has no two endings of that form. -/
theorem ending_unique {before first second : FileName} (free : .char '.' ∉ first) (other : .char '.' ∉ second)
    (ends : (.char '.' :: second) <:+ before ++ .char '.' :: first) : second = first := by
  obtain ⟨rest, same⟩ := ends
  rcases List.append_eq_append_iff.mp same with ⟨gap, _, split⟩ | ⟨gap, _, split⟩
  · cases gap with
    | nil => exact (List.cons.inj split).2
    | cons c gap =>
      obtain ⟨_, rfl⟩ := List.cons.inj split
      exact absurd (by simp) other
  · cases gap with
    | nil => exact (List.cons.inj split).2.symm
    | cons c gap =>
      obtain ⟨_, rfl⟩ := List.cons.inj split
      exact absurd (by simp) free

/-- An extension that is not empty is what a name has from its last dot on. -/
theorem splitext_split (name : FileName) (extended : (splitext name).2 ≠ []) :
    ∃ before tail, (splitext name).2 = .char '.' :: tail ∧ .char '.' ∉ tail ∧ name = before ++ .char '.' :: tail := by
  unfold splitext at extended ⊢
  simp only at extended ⊢
  split at extended
  · rename_i stemmed
    rw [if_pos stemmed]
    refine ⟨(name.rdropWhile (· ≠ .char '.')).dropLast, name.rtakeWhile (· ≠ .char '.'), rfl, ?_, ?_⟩
    · intro dot
      simpa using List.mem_rtakeWhile_imp dot
    · have dotted : name.rdropWhile (· ≠ .char '.') ≠ [] := by
        intro empty
        rw [empty] at stemmed
        simp at stemmed
      have last : (name.rdropWhile (· ≠ .char '.')).getLast dotted = .char '.' := by
        simpa using List.rdropWhile_last_not (· ≠ .char '.') name dotted
      have whole := List.dropLast_append_getLast dotted
      rw [last] at whole
      conv_lhs => rw [← List.rdropWhile_append_rtakeWhile (p := (· ≠ .char '.')) (l := name), ← whole]
      simp
  · exact absurd rfl extended

/-- The path to a file that has an extension has the ending of it, and no other. -/
theorem endsIn_iff {dirs : List FileName} (dirsNamed : ∀ d ∈ dirs, IsName d) (named : IsName name)
    (extended : (splitext name).2 ≠ []) (extension : IsExtension ext) (pt : FileName) :
    endsIn (filePath pt dirs name) ext = true ↔ (splitext name).2 = ext := by
  obtain ⟨before, tail, dotted, free, whole⟩ := splitext_split name extended
  obtain ⟨other, rfl, otherFree⟩ := extension
  have path : filePath pt dirs name =
      base pt ++ dirs.flatMap (· ++ [.char '/']) ++ before ++ .char '.' :: tail := by
    rw [filePath_eq pt dirs dirsNamed named, qualified, whole]
    simp
  rw [endsIn, List.isSuffixOf_iff_suffix, path, dotted]
  constructor
  · intro ends
    rw [ending_unique free otherFree ends]
  · intro same
    rw [same]
    exact List.suffix_append _ _

end JgreAnalysis.FileNames
