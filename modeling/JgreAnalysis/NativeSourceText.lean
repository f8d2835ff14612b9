import JgreAnalysis.LoopLaws
import JgreAnalysis.NativeDefinitions

/-! The texts behind the graph. For every function the walk looks for a tag in
the lines of the source, once its body is done, and a text that cannot be read
ends the walk of the file. -/
namespace JgreAnalysis.NativeSourceText
open ClangCursor NativeCallGraph NativeRecording NativeDefinitions

/-! ## The lines that are looked at -/

/-- The line of the number, counted from one, has the tag. -/
def HasTag (data : List String) (k : ℕ) : Prop := ∃ i li, k = i + 1 ∧ data[(i : ℕ)]? = some li ∧ contains li jgrTag = true

/-- A line from the first number to the last has the tag. -/
def TagWithin (data : List String) (first last : ℕ) : Prop := ∃ k, first ≤ k ∧ k ≤ last ∧ HasTag data k

/-- The slice from `first` to `last` leaves out the line `first`. -/
theorem tag_in_slice (data : List String) (first last : ℕ) :
    (∃ li ∈ (data.take last).drop first, contains li jgrTag = true) ↔ TagWithin data (first + 1) last := by
  constructor
  · rintro ⟨li, member, tagged⟩
    obtain ⟨i, found⟩ := List.mem_iff_getElem?.mp member
    rw [List.getElem?_drop, List.getElem?_take] at found
    split at found
    · rename_i before
      exact ⟨first + i + 1, by omega, by omega, first + i, li, rfl, found, tagged⟩
    · cases found
  · rintro ⟨_, above, below, i, li, rfl, found, tagged⟩
    refine ⟨li, List.mem_iff_getElem?.mpr ⟨i - first, ?_⟩, tagged⟩
    rw [List.getElem?_drop, List.getElem?_take, if_pos (by omega), show first + (i - first) = i by omega, found]

variable (sources : Sources)

/-- The fallback for the function records an exit edge in an empty graph. -/
def RecordsExit (entryMethod : Node) (n : Cursor) : Prop :=
  ∃ edge ∈ getCallSet ((findNewGlobalRefByHardcode sources entryMethod n).run ∅).2 (getMethodSimpleName entryMethod),
    edge.isExitPoint = true

variable {sources}

theorem recordsExit_iff (entryMethod : Node) (n : Cursor) : RecordsExit sources entryMethod n ↔ Tagged sources n := by
  have performs (name : String) (edge : Edge) : (name, edge) ∈ performed (newGlobalRefEvents sources entryMethod n) ↔
      name = getMethodSimpleName entryMethod ∧ Tagged sources n ∧ edge = { Edge.of n with isExitPoint := true } :=
    (mem_performed_step entryMethod (.leave n)).trans (mem_newGlobalRefEvents entryMethod n)
  have added_of_kept (edge : Edge) (kept : edge ∈ getCallSet
      (addOperations ∅ (performed (newGlobalRefEvents sources entryMethod n))) (getMethodSimpleName entryMethod)) :
      Tagged sources n ∧ edge = { Edge.of n with isExitPoint := true } := by
    obtain ⟨before, after, split, _⟩ := (mem_callSet_iff_first _ _ edge).mp kept
    exact ((performs (getMethodSimpleName entryMethod) edge).mp (by simp [split])).2
  unfold RecordsExit
  rw [findNewGlobalRef_eq, replay_graph]
  constructor
  · rintro ⟨edge, kept, _⟩
    exact (added_of_kept edge kept).1
  · intro tagged
    have added := (performs _ _).mpr ⟨rfl, tagged, rfl⟩
    obtain ⟨edge, kept, _⟩ := List.mem_map.mp ((fullName_recorded ∅ _ _ _).mpr (.inr ⟨_, added, rfl⟩))
    exact ⟨edge, kept, by rw [(added_of_kept edge kept).2]⟩

theorem tagged_iff (function : n.kind = .functionDecl) (read : sources.lines n.extent.file = some data)
    (range : getNodeRange n = (first, last)) : Tagged sources n ↔ TagWithin data (first + 1) last := by
  unfold Tagged LooksAtText readLines
  rw [range, read, ← tag_in_slice]
  constructor
  · rintro ⟨_, lines, same, tagged⟩
    cases same
    exact tagged
  · rintro ⟨li, member, tagged⟩
    have long : first < last := by
      by_contra short
      rw [List.drop_eq_nil_of_le (by simp; omega)] at member
      cases member
    exact ⟨⟨function, long⟩, _, rfl, li, member, tagged⟩

/-- The fallback sees the tag exactly where the lines of the function have it,
unless only the first of them has it. -/
theorem lines_covered_iff (entryMethod : Node) (function : n.kind = .functionDecl)
    (read : sources.lines n.extent.file = some data) (range : getNodeRange n = (first, last)) :
    (RecordsExit sources entryMethod n ↔ TagWithin data first last) ↔
      ¬ (first ≤ last ∧ HasTag data first ∧ ¬ TagWithin data (first + 1) last) := by
  rw [recordsExit_iff, tagged_iff function read range]
  have whole : TagWithin data first last ↔ (first ≤ last ∧ HasTag data first) ∨ TagWithin data (first + 1) last := by
    constructor
    · rintro ⟨k, above, below, tagged⟩
      rcases Nat.eq_or_lt_of_le above with rfl | later
      · exact .inl ⟨below, tagged⟩
      · exact .inr ⟨k, later, below, tagged⟩
    · rintro (⟨short, tagged⟩ | ⟨k, above, below, tagged⟩)
      · exact ⟨first, le_rfl, short, tagged⟩
      · exact ⟨k, by omega, below, tagged⟩
  rw [whole]
  by_cases later : TagWithin data (first + 1) last <;> simp [later]

/-- A function on one line. -/
def keepNode : Node := sampleFunction [unitNames] "android_keep"

def keepText : List String := ["jobject android_keep(JNIEnv* env, jobject obj) \x7b return env->NewGlobalRef(obj); \x7d"]

def keeping : Sources := sampleSources (unitOf [definitionOf keepNode 1 []]) keepText

theorem lines_covered_iff_keep : (definitionOf keepNode 1 []).kind = .functionDecl ∧
    keeping.lines "f.cpp" = some keepText ∧ getNodeRange (definitionOf keepNode 1 []) = (1, 1) ∧
    ((RecordsExit keeping keepNode (definitionOf keepNode 1 []) ↔ TagWithin keepText 1 1) ↔
      ¬ (1 ≤ 1 ∧ HasTag keepText 1 ∧ ¬ TagWithin keepText (1 + 1) 1)) :=
  ⟨rfl, rfl, rfl, lines_covered_iff keepNode rfl rfl rfl⟩

/-- The line has the tag, and nothing is recorded. -/
theorem keep_unseen : TagWithin keepText 1 1 ∧ ¬ RecordsExit keeping keepNode (definitionOf keepNode 1 []) ∧
    ¬ ∀ (sources : Sources) (entryMethod : Node) (n : Cursor) (data : List String) (first last : ℕ),
      n.kind = .functionDecl → sources.lines n.extent.file = some data → getNodeRange n = (first, last) →
      (RecordsExit sources entryMethod n ↔ TagWithin data first last) := by
  have tagged : TagWithin keepText 1 1 := ⟨1, le_rfl, le_rfl, 0, _, rfl, rfl, by decide +kernel⟩
  have unseen : ¬ RecordsExit keeping keepNode (definitionOf keepNode 1 []) := by
    rw [recordsExit_iff]
    rintro ⟨⟨_, long⟩, _⟩
    exact absurd long (by decide)
  exact ⟨tagged, unseen, fun covered => unseen ((covered keeping keepNode _ keepText 1 1 rfl rfl rfl).mpr tagged)⟩

/-! ## A text that cannot be read -/

/-- The sources with every text read, and nothing in it. -/
def withoutText (sources : Sources) : Sources := { sources with lines := fun _ => some [] }

/-- The walk leaves its first function without a text after some steps, before
the others. -/
def StopsAt (sources : Sources) (root : Cursor) (before after : List (Cursor × WalkStep)) : Prop :=
  ∃ v n, unitSteps root = before ++ (v, .leave n) :: after ∧ Unread sources n ∧
    ∀ earlier ∈ before, ∀ m, earlier.2 = .leave m → ¬ Unread sources m

/-- The walk stops somewhere if it leaves a function without a text. -/
theorem stops_of_unread (left : (v, .leave n) ∈ unitSteps root) (unread : Unread sources n) :
    ∃ before after, StopsAt sources root before after := by
  classical
  obtain ⟨⟨w, step⟩, before, after, readable, missing, split, _⟩ := List.exists_of_eraseP
    (p := fun item : Cursor × WalkStep => decide (∃ m, item.2 = .leave m ∧ Unread sources m)) left (by simpa using unread)
  obtain ⟨m, rfl, notRead⟩ := of_decide_eq_true missing
  exact ⟨before, after, w, m, split, notRead, fun earlier member k same unreadable =>
    readable earlier member (decide_eq_true ⟨k, same, unreadable⟩)⟩

/-- What the walk gets to is met before it stops. -/
theorem reaches_before (stops : StopsAt sources root before after) (name full : String) :
    Reaches sources root name full ↔
      ∃ item ∈ before, getMethodSimpleName item.1.node = name ∧ Mentions sources item.2 full := by
  obtain ⟨v, n, split, unread, readable⟩ := stops
  constructor
  · rintro ⟨d, step, _, named, mentions, earlier, later, other, quiet⟩
    have missing : ∃ m, (v, WalkStep.leave n).2 = .leave m ∧ Unread sources m := ⟨n, rfl, unread⟩
    have read : ∀ item ∈ earlier, ¬ ∃ m, item.2 = .leave m ∧ Unread sources m := by
      rintro item member ⟨m, left, unreadable⟩
      exact quiet item member m left unreadable
    rcases LoopLaws.quiet_split (split.symm.trans other) missing read with met | same
    · exact ⟨(d, step), met, named, mentions⟩
    · cases same
      exact absurd mentions.1 (not_tagged_of_unread unread)
  · rintro ⟨⟨d, step⟩, member, named, mentions⟩
    have taken : (d, step) ∈ unitSteps root := by simp [split, member]
    obtain ⟨earlier, later, rfl⟩ := List.append_of_mem member
    refine ⟨d, step, ((mem_unitSteps root d step).mp taken).1, named, mentions, earlier, later ++ (v, .leave n) :: after,
      by simp [split], fun item inside => readable item (by simp [inside])⟩

/-- Without texts the walk gets to what the tree has. -/
theorem reaches_withoutText (root : Cursor) (name full : String) :
    Reaches (withoutText sources) root name full ↔ ∃ d n, (d, .meet n) ∈ unitSteps root ∧
      getMethodSimpleName d.node = name ∧ Mentions sources (.meet n) full := by
  constructor
  · rintro ⟨d, step, _, named, mentions, before, after, split, _⟩
    cases step with
    | meet n => exact ⟨d, n, by simp [split], named, mentions⟩
    | leave n =>
      obtain ⟨⟨_, lines, read, li, member, _⟩, _⟩ := mentions
      cases read
      simp at member
  · rintro ⟨d, n, taken, rfl, mentions⟩
    have readable : ∀ v m, (v, .leave m) ∈ unitSteps root → ¬ Unread (withoutText sources) m := by
      rintro v m _ ⟨_, missing⟩
      cases missing
    exact reaches_of_taken readable taken mentions

/-- A file keeps all edges of its tree exactly when those behind the first
function without a text were in the graph, or were met before under the same
name. -/
theorem edges_kept_iff (parsed : sources.parse file = some root) (graph : CallGraph) :
    (∀ d, Visited d root → ∀ full ∈ fullNames (addFile (withoutText sources) graph file) (getMethodSimpleName d.node),
      full ∈ fullNames (addFile sources graph file) (getMethodSimpleName d.node)) ↔
    ∀ before after, StopsAt sources root before after → ∀ d n full, (d, .meet n) ∈ after →
      Mentions sources (.meet n) full → full ∈ fullNames graph (getMethodSimpleName d.node) ∨
        ∃ item ∈ before, getMethodSimpleName item.1.node = getMethodSimpleName d.node ∧
          Mentions sources item.2 full := by
  have parsedBare : (withoutText sources).parse file = some root := parsed
  simp only [addFile_eq, fullName_recorded, fileOperations_iff parsed, fileOperations_iff parsedBare,
    reaches_withoutText]
  constructor
  · intro kept before after stops d n full member mentions
    obtain ⟨v, m, split, _⟩ := id stops
    have taken : (d, .meet n) ∈ unitSteps root := by simp [split, member]
    rcases kept d ((mem_unitSteps root d _).mp taken).1 full (.inr ⟨d, n, taken, rfl, mentions⟩) with old | reached
    · exact .inl old
    · exact .inr ((reaches_before stops _ full).mp reached)
  · rintro behind d - full (old | ⟨v, n, taken, named, mentions⟩)
    · exact .inl old
    · rw [← named]
      by_cases stopped : ∃ w m, (w, .leave m) ∈ unitSteps root ∧ Unread sources m
      · obtain ⟨w, m, left, unread⟩ := stopped
        obtain ⟨before, after, stops⟩ := stops_of_unread left unread
        rw [reaches_before stops]
        obtain ⟨x, k, split, _⟩ := id stops
        rw [split, List.mem_append, List.mem_cons] at taken
        rcases taken with earlier | same | later
        · exact .inr ⟨(v, .meet n), earlier, rfl, mentions⟩
        · cases same
        · exact behind before after stops v n full later mentions
      · exact .inr (reaches_of_taken (fun w m left unread => stopped ⟨w, m, left, unread⟩) taken mentions)

/-- A function of three lines, and after it one that calls another, in a file
whose text cannot be decoded. -/
def twoFunctions : Cursor :=
  unitOf [definitionOf (sampleFunction [unitNames] "android_first") 3 [],
    definitionOf (sampleFunction [unitNames] "android_second") 7 [callOf (sampleFunction [unitNames] "retain")]]

def undecodable : Sources := { sampleSources twoFunctions [] with lines := fun _ => none }

theorem edges_kept_iff_undecodable : undecodable.parse "f.cpp" = some twoFunctions ∧
    ((∀ d, Visited d twoFunctions → ∀ full ∈ fullNames (addFile (withoutText undecodable) ∅ "f.cpp")
        (getMethodSimpleName d.node), full ∈ fullNames (addFile undecodable ∅ "f.cpp") (getMethodSimpleName d.node)) ↔
      ∀ before after, StopsAt undecodable twoFunctions before after → ∀ d n full, (d, .meet n) ∈ after →
        Mentions undecodable (.meet n) full → full ∈ fullNames ∅ (getMethodSimpleName d.node) ∨
          ∃ item ∈ before, getMethodSimpleName item.1.node = getMethodSimpleName d.node ∧
            Mentions undecodable item.2 full) :=
  ⟨rfl, edges_kept_iff rfl ∅⟩

/-- The first function ends the walk, and the call of the second is lost. -/
theorem second_lost :
    fullNames (addFile undecodable ∅ "f.cpp") "android_second" = [] ∧
    fullNames (addFile (withoutText undecodable) ∅ "f.cpp") "android_second" = ["retain()"] ∧
    ¬ ∀ d, Visited d twoFunctions → ∀ full ∈ fullNames (addFile (withoutText undecodable) ∅ "f.cpp")
      (getMethodSimpleName d.node), full ∈ fullNames (addFile undecodable ∅ "f.cpp") (getMethodSimpleName d.node) := by
  have lost : fullNames (addFile undecodable ∅ "f.cpp") "android_second" = [] := by decide +kernel
  have wanted : fullNames (addFile (withoutText undecodable) ∅ "f.cpp") "android_second" = ["retain()"] := by
    decide +kernel
  refine ⟨lost, wanted, fun kept => ?_⟩
  have visited : Visited (definitionOf (sampleFunction [unitNames] "android_second") 7
      [callOf (sampleFunction [unitNames] "retain")]) twoFunctions := .function (by simp [twoFunctions, unitOf, Cursor.children]) rfl
  have named : getMethodSimpleName (sampleFunction [unitNames] "android_second") = "android_second" := by decide +kernel
  have recorded := kept _ visited "retain()"
  change "retain()" ∈ fullNames _ (getMethodSimpleName (sampleFunction [unitNames] "android_second")) →
    "retain()" ∈ fullNames _ (getMethodSimpleName (sampleFunction [unitNames] "android_second")) at recorded
  rw [named, lost, wanted] at recorded
  simp at recorded

end JgreAnalysis.NativeSourceText
