import JgreAnalysis.NativeDefinitions

/-! What the graph holds after the walk of a unit, name by name, where every text
that is wanted can be read. -/
namespace JgreAnalysis.NativeContent
open SootModel ClangCursor NativeCallGraph NativeRecording NativeDefinitions

variable (sources : Sources)

/-- The texts of all functions in the visited definitions can be read. -/
def Readable (root : Cursor) : Prop := ∀ d, Visited d root → ∀ n, n = d ∨ Below n d → ¬ Unread sources n

/-- The full name comes from the definition: from a call at any depth, from the
class of a strong pointer's initialisation, or from a function with a tagged
text. -/
inductive Contributes (d : Cursor) : String → Prop where
  | call (inside : Below n d) (kind : n.kind = .callExpr) : Contributes d (Edge.of n).fullName
  | init (inside : Below n d) (kind : n.kind = .varDecl) (type : SpTypeRef n.children t) :
      Contributes d (Edge.of t).fullName
  | text (inside : n = d ∨ Below n d) (tagged : Tagged sources n) : Contributes d n.node.displayname

/-- A visited definition of the simple name contributes the full name. -/
def Collected (root : Cursor) (name full : String) : Prop :=
  ∃ d, Visited d root ∧ getMethodSimpleName d.node = name ∧ Contributes sources d full

variable {sources}

theorem tagged_fullName (tagged : Tagged sources n) : (Edge.of n).fullName = n.node.displayname := by
  have function : n.node.kind = .functionDecl := tagged.1.1
  have referenced : (Edge.of n).node = n.node := by
    simp [Edge.of, Cursor.referenced, Cursor.kind, function, CursorKind.isDeclaration]
  rw [Edge.fullName, referenced]
  simp [function]

/-- The steps of the walk below a definition mention what it contributes. -/
theorem contributes_iff (d : Cursor) (full : String) :
    Contributes sources d full ↔ ∃ step ∈ walkBelow d, Mentions sources step full := by
  constructor
  · intro contributes
    cases contributes with
    | @call n inside kind => exact ⟨.meet n, (mem_walkBelow d n).1.mpr inside, .inl ⟨kind, rfl⟩⟩
    | @init n t inside kind type => exact ⟨.meet n, (mem_walkBelow d n).1.mpr inside, .inr ⟨kind, t, type, rfl⟩⟩
    | @text n inside tagged => exact ⟨.leave n, (mem_walkBelow d n).2.mpr inside, tagged, tagged_fullName tagged⟩
  · rintro ⟨step, taken, mentions⟩
    cases step with
    | meet n =>
      have inside := (mem_walkBelow d n).1.mp taken
      rcases mentions with ⟨kind, rfl⟩ | ⟨kind, t, type, rfl⟩
      · exact .call inside kind
      · exact .init inside kind type
    | leave n =>
      obtain ⟨tagged, rfl⟩ := mentions
      rw [tagged_fullName tagged]
      exact .text ((mem_walkBelow d n).2.mp taken) tagged

/-- The walk gets to everything where all texts can be read. -/
theorem reaches_iff (readable : Readable sources root) (name full : String) :
    Reaches sources root name full ↔ Collected sources root name full := by
  simp only [Reaches, Collected, contributes_iff]
  constructor
  · rintro ⟨d, step, visited, named, mentions, before, after, split, _⟩
    have taken : (d, step) ∈ unitSteps root := by simp [split]
    exact ⟨d, visited, named, step, ((mem_unitSteps root d step).mp taken).2, mentions⟩
  · rintro ⟨d, visited, rfl, step, taken, mentions⟩
    refine reaches_of_taken (fun v n left => ?_) ((mem_unitSteps root d step).mpr ⟨visited, taken⟩) mentions
    obtain ⟨entered, inside⟩ := (mem_unitSteps root v _).mp left
    exact readable v entered n ((mem_walkBelow v n).2.mp inside)

/-- After the walk of a unit the graph has under every name exactly the full
names that its definitions of the name contribute, and no other keys. -/
theorem unit_content (readable : Readable sources root) (name : String) :
    (∀ full, full ∈ fullNames ((getEntryMethodNode sources root).run ∅).2 name ↔ Collected sources root name full) ∧
    (name ∈ ((getEntryMethodNode sources root).run ∅).2 ↔ ∃ full, Collected sources root name full) := by
  have recorded (full : String) : (∃ edge, (name, edge) ∈ performed (unitEvents sources root) ∧ edge.fullName = full) ↔
      Collected sources root name full :=
    (recorded_iff root name full).trans (reaches_iff readable name full)
  rw [getEntryMethodNode_eq, replay_graph]
  constructor
  · intro full
    rw [fullName_recorded, recorded, or_iff_right (by simp [fullNames, getCallSet])]
  · rw [mem_addOperations, or_iff_right (AList.notMem_empty name)]
    simp only [← recorded]
    constructor
    · rintro ⟨op, added, rfl⟩
      exact ⟨op.2.fullName, op.2, added, rfl⟩
    · rintro ⟨full, edge, added, _⟩
      exact ⟨(name, edge), added, rfl⟩

/-- One function that calls another, with a tag in every text. -/
def callingUnit : Cursor :=
  unitOf [definitionOf (sampleFunction [unitNames] "android_init") 3 [callOf (sampleFunction [unitNames] "retain")]]

def tagEverywhere : Sources := { sampleSources callingUnit [] with lines := fun _ => some [jgrTag, jgrTag] }

theorem unit_content_tagEverywhere : Readable tagEverywhere callingUnit ∧
    (∀ full, full ∈ fullNames ((getEntryMethodNode tagEverywhere callingUnit).run ∅).2 "android_init" ↔
      Collected tagEverywhere callingUnit "android_init" full) ∧
    ("android_init" ∈ ((getEntryMethodNode tagEverywhere callingUnit).run ∅).2 ↔
      ∃ full, Collected tagEverywhere callingUnit "android_init" full) := by
  have readable : Readable tagEverywhere callingUnit := by
    rintro d _ n _ ⟨_, missing⟩
    cases missing
  exact ⟨readable, unit_content readable "android_init"⟩

example : fullNames ((getEntryMethodNode tagEverywhere callingUnit).run ∅).2 "android_init" =
    ["retain()", "android_init()"] := by decide +kernel

end JgreAnalysis.NativeContent
