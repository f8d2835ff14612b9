import JgreAnalysis.NativeRecording

/-! Which definitions of a translation unit the graph knows. The walk enters
functions below namespaces and the members of classes there, and it goes through
each of them to the end unless the source of a function cannot be read. -/
namespace JgreAnalysis.NativeDefinitions
open SootModel ClangCursor NativeCallGraph NativeRecording

def isMember (n : Cursor) : Bool := n.kind = .constructor || n.kind = .destructor || n.kind = .cxxMethod

mutual
/-- The definitions that the walk of a unit enters, in order. -/
def visitedDefinitions : Cursor → List Cursor
  | .mk _ _ _ children => visitedIn children

def visitedIn : List Cursor → List Cursor
  | [] => []
  | n :: rest =>
    (if n.kind = .classDecl then n.children.filter isMember else []) ++
    (if n.kind = .functionDecl then [n] else []) ++
    (if n.kind = .nameSpace then visitedDefinitions n else []) ++ visitedIn rest
end

/-- The definition is a function below a chain of namespaces, or a member of a
class there. -/
inductive Visited : Cursor → Cursor → Prop where
  | function : d ∈ root.children → d.kind = .functionDecl → Visited d root
  | member : c ∈ root.children → c.kind = .classDecl → d ∈ c.children → isMember d = true → Visited d root
  | within : n ∈ root.children → n.kind = .nameSpace → Visited d n → Visited d root

/-- Below a definition every cursor is met before those below it, and left after
them. The definition itself is only left. -/
inductive WalkStep where
  | meet (n : Cursor)
  | leave (n : Cursor)

mutual
def walkBelow : Cursor → List WalkStep
  | .mk node refers extent children => walkThrough children ++ [.leave (.mk node refers extent children)]

def walkThrough : List Cursor → List WalkStep
  | [] => []
  | n :: rest => .meet n :: (walkBelow n ++ walkThrough rest)
end

/-- The steps of the walk through a unit, each in the definition it belongs to. -/
def unitSteps (root : Cursor) : List (Cursor × WalkStep) :=
  (visitedDefinitions root).flatMap fun d => (walkBelow d).map fun step => (d, step)

/-- The type in the initialisation of a strong pointer. -/
def SpTypeRef (children : List Cursor) (t : Cursor) : Prop :=
  ∃ before after, children = before ++ t :: after ∧
    (∃ sp ∈ before, sp.kind = .templateRef ∧ sp.spelling = "sp") ∧
    t.kind = .typeRef ∧ startsWith (fullyQualified t.node.path) "class" = true

/-- The text of a function is looked at, over more than one line. -/
def LooksAtText (n : Cursor) : Prop := n.kind = .functionDecl ∧ (getNodeRange n).1 < (getNodeRange n).2

variable (sources : Sources)

/-- The text of the function is wanted and cannot be read. -/
def Unread (n : Cursor) : Prop := LooksAtText n ∧ sources.lines n.extent.file = none

/-- The lines that are looked at have the tag of an exit point. -/
def Tagged (n : Cursor) : Prop :=
  LooksAtText n ∧ ∃ lines, readLines sources n.extent.file (getNodeRange n).1 (getNodeRange n).2 = some lines ∧
    ∃ li ∈ lines, contains li jgrTag = true

/-- The step comes to a cursor of the full name: a call, the type of a strong
pointer, or a tagged function. -/
def Mentions (step : WalkStep) (full : String) : Prop :=
  match step with
  | .meet n => (n.kind = .callExpr ∧ (Edge.of n).fullName = full) ∨
      (n.kind = .varDecl ∧ ∃ t, SpTypeRef n.children t ∧ (Edge.of t).fullName = full)
  | .leave n => Tagged sources n ∧ (Edge.of n).fullName = full

/-- The walk takes the step in the definition, while every function left before
could be read. -/
def Takes (root d : Cursor) (step : WalkStep) : Prop :=
  ∃ before after, unitSteps root = before ++ (d, step) :: after ∧
    ∀ earlier ∈ before, ∀ n, earlier.2 = .leave n → ¬ Unread sources n

/-- A visited definition of the simple name has a step to the full name. -/
def Reaches (root : Cursor) (name full : String) : Prop :=
  ∃ d step, Visited d root ∧ getMethodSimpleName d.node = name ∧ Mentions sources step full ∧
    Takes sources root d step

/-! ## The visited definitions -/

theorem visitedDefinitions_eq (root : Cursor) : visitedDefinitions root = visitedIn root.children := by
  cases root
  rfl

theorem mem_visitedIn (nodes : List Cursor) : d ∈ visitedIn nodes ↔ ∃ n ∈ nodes,
    (n.kind = .classDecl ∧ d ∈ n.children ∧ isMember d = true) ∨ (n.kind = .functionDecl ∧ d = n) ∨
      (n.kind = .nameSpace ∧ d ∈ visitedDefinitions n) := by
  induction nodes with
  | nil => simp [visitedIn]
  | cons n rest ih =>
    simp only [visitedIn, List.mem_append, ih, List.exists_mem_cons_iff]
    cases n.kind <;> simp

theorem visited_of_mem (root : Cursor) (member : d ∈ visitedDefinitions root) : Visited d root := by
  rw [visitedDefinitions_eq] at member
  obtain ⟨n, listed, here⟩ := (mem_visitedIn _).mp member
  rcases here with ⟨kind, inside, memberKind⟩ | ⟨kind, rfl⟩ | ⟨kind, deep⟩
  · exact .member listed kind inside memberKind
  · exact .function listed kind
  · exact .within listed kind (visited_of_mem n deep)
termination_by sizeOf root
decreasing_by exact sizeOf_child root listed

/-- The walk enters exactly the visited definitions. -/
theorem mem_visitedDefinitions (root d : Cursor) : d ∈ visitedDefinitions root ↔ Visited d root := by
  constructor
  · exact visited_of_mem root
  · intro visited
    induction visited with
    | function listed kind =>
      rw [visitedDefinitions_eq]
      exact (mem_visitedIn _).mpr ⟨_, listed, .inr (.inl ⟨kind, rfl⟩)⟩
    | member listed kind inside memberKind =>
      rw [visitedDefinitions_eq]
      exact (mem_visitedIn _).mpr ⟨_, listed, .inl ⟨kind, inside, memberKind⟩⟩
    | within listed kind _ ih =>
      rw [visitedDefinitions_eq]
      exact (mem_visitedIn _).mpr ⟨_, listed, .inr (.inr ⟨kind, ih⟩)⟩

/-- The walk of a unit is that of its visited definitions. -/
theorem mem_unitSteps (root d : Cursor) (step : WalkStep) :
    (d, step) ∈ unitSteps root ↔ Visited d root ∧ step ∈ walkBelow d := by
  rw [unitSteps, List.mem_flatMap, ← mem_visitedDefinitions]
  constructor
  · rintro ⟨other, entered, found⟩
    obtain ⟨_, taken, same⟩ := List.mem_map.mp found
    cases same
    exact ⟨entered, taken⟩
  · rintro ⟨entered, taken⟩
    exact ⟨d, entered, List.mem_map_of_mem taken⟩

/-! ## The walk and its events -/

/-- What one step records for a definition. -/
def stepEvents (entryMethod : Node) : WalkStep → List Event
  | .meet n =>
    (if n.kind = .callExpr then [.added (getMethodSimpleName entryMethod) (.of n)] else []) ++
    (if n.kind = .varDecl then spClassInitEvents entryMethod false n.children else [])
  | .leave n => newGlobalRefEvents sources entryMethod n

variable {sources}

mutual
theorem childEvents_eq (entryMethod : Node) (c : Cursor) :
    childEvents sources entryMethod c = (walkBelow c).flatMap (stepEvents sources entryMethod) := by
  cases c with
  | mk node refers extent children =>
    rw [childEvents, walkBelow, List.flatMap_append, childrenEvents_eq entryMethod children]
    simp [stepEvents]

theorem childrenEvents_eq (entryMethod : Node) (nodes : List Cursor) :
    childrenEvents sources entryMethod nodes = (walkThrough nodes).flatMap (stepEvents sources entryMethod) := by
  cases nodes with
  | nil => rfl
  | cons n rest =>
    rw [childrenEvents, walkThrough, List.flatMap_cons, List.flatMap_append, childEvents_eq entryMethod n,
      childrenEvents_eq entryMethod rest, stepEvents, List.append_assoc]
end

theorem classEvents_eq (node : Cursor) :
    classEvents sources node = (node.children.filter isMember).flatMap fun d => childEvents sources d.node d := by
  unfold classEvents
  induction node.children with
  | nil => rfl
  | cons n rest ih =>
    rw [List.flatMap_cons, ih, List.filter_cons]
    by_cases member : isMember n = true
    · have kinds : n.kind = .constructor ∨ n.kind = .destructor ∨ n.kind = .cxxMethod := by
        simpa [isMember, or_assoc] using member
      simp [member, kinds]
    · have kinds : ¬ (n.kind = .constructor ∨ n.kind = .destructor ∨ n.kind = .cxxMethod) := by
        simpa [isMember, not_or, and_assoc] using member
      simp [member, kinds]

mutual
/-- A unit records what its visited definitions record. -/
theorem unitEvents_eq (c : Cursor) :
    unitEvents sources c = (visitedDefinitions c).flatMap fun d => childEvents sources d.node d := by
  cases c with
  | mk node refers extent children => exact unitsEvents_eq children

theorem unitsEvents_eq (nodes : List Cursor) :
    unitsEvents sources nodes = (visitedIn nodes).flatMap fun d => childEvents sources d.node d := by
  cases nodes with
  | nil => rfl
  | cons n rest =>
    rw [unitsEvents, visitedIn, unitEvents_eq n, unitsEvents_eq rest, classEvents_eq]
    simp only [List.flatMap_append]
    split <;> split <;> split <;> simp
end

theorem unitEvents_steps (root : Cursor) :
    unitEvents sources root = (unitSteps root).flatMap fun item => stepEvents sources item.1.node item.2 := by
  rw [unitEvents_eq, unitSteps, List.flatMap_assoc]
  refine List.flatMap_congr fun d _ => ?_
  rw [childEvents_eq, List.flatMap_map]

/-- The types recorded for an initialisation follow an `sp`. -/
theorem mem_spClassInitEvents (methodNode : Node) (seen : Bool) (children : List Cursor) :
    .added name edge ∈ spClassInitEvents methodNode seen children ↔
      name = getMethodSimpleName methodNode ∧ ∃ before t after, children = before ++ t :: after ∧
        (seen = true ∨ ∃ sp ∈ before, sp.kind = .templateRef ∧ sp.spelling = "sp") ∧
        t.kind = .typeRef ∧ startsWith (fullyQualified t.node.path) "class" = true ∧ edge = .of t := by
  induction children generalizing seen with
  | nil => simp [spClassInitEvents]
  | cons n rest ih =>
    rw [spClassInitEvents, List.mem_append, ih]
    constructor
    · rintro (here | ⟨rfl, before, t, after, rfl, pointer, found⟩)
      · split at here
        · rename_i type
          cases List.mem_singleton.mp here
          have plain : ¬ n.kind = .templateRef := by simp [type.2.1]
          exact ⟨rfl, [], n, rest, rfl, .inl (by simpa [plain] using type.1), type.2.1, type.2.2, rfl⟩
        · cases here
      · refine ⟨rfl, n :: before, t, after, rfl, ?_, found⟩
        rcases pointer with marked | ⟨sp, member, template⟩
        · rcases (Bool.or_eq_true _ _).mp marked with old | new
          · exact .inl old
          · exact .inr ⟨n, List.mem_cons_self, by simpa using new⟩
        · exact .inr ⟨sp, List.mem_cons_of_mem n member, template⟩
    · rintro ⟨rfl, before, t, after, split, pointer, type, qualified, rfl⟩
      cases before with
      | nil =>
        obtain ⟨rfl, rfl⟩ := List.cons.inj split
        left
        rcases pointer with marked | ⟨sp, member, _⟩
        · simp [marked, type, qualified]
        · cases member
      | cons first before =>
        obtain ⟨rfl, rfl⟩ := List.cons.inj split
        refine .inr ⟨rfl, before, t, after, rfl, ?_, type, qualified, rfl⟩
        rcases pointer with marked | ⟨sp, member, template⟩
        · exact .inl (by simp [marked])
        · rcases List.mem_cons.mp member with rfl | later
          · exact .inl (by simp [template])
          · exact .inr ⟨sp, later, template⟩

theorem linesMissing_not_spClassInit (methodNode : Node) (seen : Bool) (children : List Cursor) :
    .linesMissing ∉ spClassInitEvents methodNode seen children := by
  induction children generalizing seen with
  | nil => simp [spClassInitEvents]
  | cons n rest ih =>
    rw [spClassInitEvents, List.mem_append]
    rintro (here | later)
    · split at here <;> simp at here
    · exact ih _ later

theorem mem_newGlobalRefEvents (entryMethod : Node) (n : Cursor) :
    .added name edge ∈ newGlobalRefEvents sources entryMethod n ↔
      name = getMethodSimpleName entryMethod ∧ Tagged sources n ∧ edge = { Edge.of n with isExitPoint := true } := by
  unfold newGlobalRefEvents Tagged LooksAtText
  by_cases function : n.kind = .functionDecl
  · by_cases long : (getNodeRange n).1 < (getNodeRange n).2
    · cases read : readLines sources n.extent.file (getNodeRange n).1 (getNodeRange n).2 with
      | none => simp [function, long, read]
      | some lines =>
        simp only [function, long, read, ne_eq, not_true_eq_false, if_false, if_true, true_and, List.mem_map,
          List.mem_filter, Event.added.injEq, Option.some.injEq, exists_eq_left']
        constructor
        · rintro ⟨li, tagged, rfl, rfl⟩
          exact ⟨rfl, ⟨li, tagged⟩, rfl⟩
        · rintro ⟨rfl, ⟨li, tagged⟩, rfl⟩
          exact ⟨li, tagged, rfl, rfl⟩
    · simp [function, long]
  · simp [function]

theorem linesMissing_newGlobalRef (entryMethod : Node) (n : Cursor) :
    .linesMissing ∈ newGlobalRefEvents sources entryMethod n ↔ Unread sources n := by
  unfold newGlobalRefEvents Unread LooksAtText readLines
  by_cases function : n.kind = .functionDecl
  · by_cases long : (getNodeRange n).1 < (getNodeRange n).2
    · cases sources.lines n.extent.file <;> simp [function, long]
    · simp [function, long]
  · simp [function]

/-- A step records a full name where it mentions it. -/
theorem mem_stepEvents (entryMethod : Node) (step : WalkStep) :
    (∃ edge, .added name edge ∈ stepEvents sources entryMethod step ∧ edge.fullName = full) ↔
      getMethodSimpleName entryMethod = name ∧ Mentions sources step full := by
  cases step with
  | meet n =>
    simp only [stepEvents, Mentions, SpTypeRef, List.mem_append]
    constructor
    · rintro ⟨edge, call | init, rfl⟩
      · split at call
        · rename_i kind
          cases List.mem_singleton.mp call
          exact ⟨rfl, .inl ⟨kind, rfl⟩⟩
        · cases call
      · split at init
        · rename_i kind
          obtain ⟨rfl, before, t, after, split, pointer, type, qualified, rfl⟩ := (mem_spClassInitEvents ..).mp init
          exact ⟨rfl, .inr ⟨kind, t, ⟨before, after, split, by simpa using pointer, type, qualified⟩, rfl⟩⟩
        · cases init
    · rintro ⟨rfl, ⟨kind, rfl⟩ | ⟨kind, t, ⟨before, after, split, pointer, type, qualified⟩, rfl⟩⟩
      · exact ⟨.of n, .inl (by simp [kind]), rfl⟩
      · refine ⟨.of t, .inr ?_, rfl⟩
        rw [if_pos kind]
        exact (mem_spClassInitEvents ..).mpr ⟨rfl, before, t, after, split, .inr pointer, type, qualified, rfl⟩
  | leave n =>
    simp only [stepEvents, Mentions, mem_newGlobalRefEvents]
    constructor
    · rintro ⟨edge, ⟨rfl, tagged, rfl⟩, rfl⟩
      exact ⟨rfl, tagged, rfl⟩
    · rintro ⟨rfl, tagged, rfl⟩
      exact ⟨_, ⟨rfl, tagged, rfl⟩, rfl⟩

/-- Only the text of a function that is left can be missing. -/
theorem linesMissing_mem_stepEvents (entryMethod : Node) (step : WalkStep) :
    .linesMissing ∈ stepEvents sources entryMethod step ↔ ∃ n, step = .leave n ∧ Unread sources n := by
  cases step with
  | meet n =>
    simp only [stepEvents, List.mem_append, reduceCtorEq, false_and, exists_false, iff_false]
    rintro (call | init)
    · split at call <;> simp at call
    · split at init
      · exact linesMissing_not_spClassInit _ _ _ init
      · cases init
  | leave n => simp [stepEvents, linesMissing_newGlobalRef]

/-! ## What is recorded before an exception -/

theorem mem_performed_append (first rest : List Event) : op ∈ performed (first ++ rest) ↔
    op ∈ performed first ∨ (.linesMissing ∉ first ∧ op ∈ performed rest) := by
  induction first with
  | nil => simp [performed]
  | cons event first ih =>
    cases event with
    | added name edge => simp [performed, ih, or_assoc]
    | linesMissing => simp [performed]

/-- The events of some steps are recorded up to the first exception among them. -/
theorem mem_performed_flatMap (events : α → List Event) (steps : List α) : op ∈ performed (steps.flatMap events) ↔
    ∃ before step after, steps = before ++ step :: after ∧
      (∀ earlier ∈ before, .linesMissing ∉ events earlier) ∧ op ∈ performed (events step) := by
  induction steps with
  | nil => simp [performed]
  | cons step steps ih =>
    rw [List.flatMap_cons, mem_performed_append, ih]
    constructor
    · rintro (here | ⟨quiet, before, later, after, rfl, silent, recorded⟩)
      · exact ⟨[], step, steps, rfl, by simp, here⟩
      · exact ⟨step :: before, later, after, rfl, List.forall_mem_cons.mpr ⟨quiet, silent⟩, recorded⟩
    · rintro ⟨before, other, after, split, silent, recorded⟩
      cases before with
      | nil =>
        obtain ⟨rfl, rfl⟩ := List.cons.inj split
        exact .inl recorded
      | cons first before =>
        obtain ⟨rfl, rfl⟩ := List.cons.inj split
        obtain ⟨quiet, silent⟩ := List.forall_mem_cons.mp silent
        exact .inr ⟨quiet, before, other, after, rfl, silent, recorded⟩

theorem added_of_performed (events : List Event) (recorded : (name, edge) ∈ performed events) :
    .added name edge ∈ events := by
  induction events with
  | nil => cases recorded
  | cons event events ih =>
    cases event with
    | added other another =>
      rcases List.mem_cons.mp recorded with same | later
      · cases same
        exact List.mem_cons_self
      · exact List.mem_cons_of_mem _ (ih later)
    | linesMissing => cases recorded

theorem performed_of_quiet (events : List Event) (quiet : .linesMissing ∉ events) (added : .added name edge ∈ events) :
    (name, edge) ∈ performed events := by
  induction events with
  | nil => cases added
  | cons event events ih =>
    cases event with
    | added other another =>
      rcases List.mem_cons.mp added with same | later
      · cases same
        exact List.mem_cons_self
      · exact List.mem_cons_of_mem _ (ih (fun missing => quiet (List.mem_cons_of_mem _ missing)) later)
    | linesMissing => exact absurd List.mem_cons_self quiet

theorem not_tagged_of_unread (unread : Unread sources n) : ¬ Tagged sources n := by
  rintro ⟨_, lines, read, _⟩
  rw [readLines, unread.2] at read
  cases read

/-- One step records all that it adds. -/
theorem mem_performed_step (entryMethod : Node) (step : WalkStep) :
    (name, edge) ∈ performed (stepEvents sources entryMethod step) ↔
      .added name edge ∈ stepEvents sources entryMethod step := by
  refine ⟨added_of_performed _, fun added => performed_of_quiet _ (fun missing => ?_) added⟩
  obtain ⟨n, rfl, unread⟩ := (linesMissing_mem_stepEvents entryMethod step).mp missing
  exact not_tagged_of_unread unread ((mem_newGlobalRefEvents entryMethod n).mp added).2.1

/-- A unit records a full name under a simple name exactly when the walk reaches
it. -/
theorem recorded_iff (root : Cursor) (name full : String) :
    (∃ edge, (name, edge) ∈ performed (unitEvents sources root) ∧ edge.fullName = full) ↔
      Reaches sources root name full := by
  have recorded (edge : Edge) : (name, edge) ∈ performed (unitEvents sources root) ↔
      ∃ before item after, unitSteps root = before ++ item :: after ∧
        (∀ earlier ∈ before, ∀ n, earlier.2 = .leave n → ¬ Unread sources n) ∧
        .added name edge ∈ stepEvents sources item.1.node item.2 := by
    simp only [unitEvents_steps, mem_performed_flatMap, mem_performed_step, linesMissing_mem_stepEvents, not_exists,
      not_and]
  constructor
  · rintro ⟨edge, added, named⟩
    obtain ⟨before, ⟨d, step⟩, after, split, silent, here⟩ := (recorded edge).mp added
    obtain ⟨spelled, mentions⟩ := (mem_stepEvents d.node step).mp ⟨edge, here, named⟩
    have taken : (d, step) ∈ unitSteps root := by simp [split]
    exact ⟨d, step, ((mem_unitSteps root d step).mp taken).1, spelled, mentions, before, after, split, silent⟩
  · rintro ⟨d, step, _, spelled, mentions, before, after, split, silent⟩
    obtain ⟨edge, here, named⟩ := (mem_stepEvents d.node step).mpr ⟨spelled, mentions⟩
    exact ⟨edge, (recorded edge).mpr ⟨before, (d, step), after, split, silent, here⟩, named⟩

theorem fileOperations_iff (parsed : sources.parse file = some root) (name full : String) :
    (∃ edge, (name, edge) ∈ fileOperations sources file ∧ edge.fullName = full) ↔ Reaches sources root name full := by
  simp only [fileOperations, parsed, recorded_iff]

/-- Where all texts can be read the walk gets to all its steps. -/
theorem reaches_of_taken (readable : ∀ v n, (v, .leave n) ∈ unitSteps root → ¬ Unread sources n)
    (taken : (d, step) ∈ unitSteps root) (mentions : Mentions sources step full) :
    Reaches sources root (getMethodSimpleName d.node) full := by
  obtain ⟨before, after, split⟩ := List.append_of_mem taken
  refine ⟨d, step, ((mem_unitSteps root d step).mp taken).1, rfl, mentions, before, after, split, ?_⟩
  rintro ⟨v, step⟩ earlier n rfl
  exact readable v n (split ▸ List.mem_append_left _ earlier)

/-! ## Which definitions are analysed -/

/-- The kinds of the definitions that have a body. -/
def definitionKinds : List CursorKind := [.functionDecl, .cxxMethod, .constructor, .destructor]

/-- Every call below the definition has an edge under its simple name. -/
def Analysed (graph : CallGraph) (d : Cursor) : Prop :=
  ∀ call, Below call d → call.kind = .callExpr →
    (Edge.of call).fullName ∈ fullNames graph (getMethodSimpleName d.node)

theorem walkBelow_eq (d : Cursor) : walkBelow d = walkThrough d.children ++ [.leave d] := by
  cases d
  rfl

theorem mem_walkThrough (nodes : List Cursor) :
    step ∈ walkThrough nodes ↔ ∃ n ∈ nodes, step = .meet n ∨ step ∈ walkBelow n := by
  induction nodes with
  | nil => simp [walkThrough]
  | cons n rest ih => rw [walkThrough, List.mem_cons, List.mem_append, ih, List.exists_mem_cons_iff, or_assoc]

theorem below_of_walked (d : Cursor) : (.meet n ∈ walkBelow d → Below n d) ∧ (.leave n ∈ walkBelow d → n = d ∨ Below n d) := by
  rw [walkBelow_eq]
  constructor
  · intro met
    obtain ⟨c, member, same | deep⟩ := (mem_walkThrough _).mp (by simpa using met)
    · cases same
      exact .child member
    · exact .deeper ((below_of_walked c).1 deep) member
  · intro left
    rcases List.mem_append.mp left with inside | last
    · obtain ⟨c, member, same | deep⟩ := (mem_walkThrough _).mp inside
      · cases same
      · rcases (below_of_walked c).2 deep with rfl | below
        · exact .inr (.child member)
        · exact .inr (.deeper below member)
    · cases List.mem_singleton.mp last
      exact .inl rfl
termination_by sizeOf d
decreasing_by all_goals exact sizeOf_child d member

theorem walked_of_below (inside : Below n d) : .meet n ∈ walkBelow d ∧ .leave n ∈ walkBelow d := by
  induction inside with
  | child member =>
    rw [walkBelow_eq]
    have last : .leave n ∈ walkBelow n := by simp [walkBelow_eq]
    exact ⟨List.mem_append_left _ ((mem_walkThrough _).mpr ⟨n, member, .inl rfl⟩),
      List.mem_append_left _ ((mem_walkThrough _).mpr ⟨n, member, .inr last⟩)⟩
  | deeper _ member ih =>
    rw [walkBelow_eq]
    exact ⟨List.mem_append_left _ ((mem_walkThrough _).mpr ⟨_, member, .inr ih.1⟩),
      List.mem_append_left _ ((mem_walkThrough _).mpr ⟨_, member, .inr ih.2⟩)⟩

/-- The walk meets exactly the cursors below a definition, and leaves these and
the definition. -/
theorem mem_walkBelow (d n : Cursor) :
    (.meet n ∈ walkBelow d ↔ Below n d) ∧ (.leave n ∈ walkBelow d ↔ n = d ∨ Below n d) := by
  refine ⟨⟨(below_of_walked d).1, fun inside => (walked_of_below inside).1⟩, (below_of_walked d).2, ?_⟩
  rintro (rfl | inside)
  · simp [walkBelow_eq]
  · exact (walked_of_below inside).2

/-- A visited definition is analysed wherever the functions of the unit can be
read. -/
theorem visited_analysed (parsed : sources.parse file = some root) (graph : CallGraph) (visited : Visited d root)
    (readable : ∀ v n, (v, .leave n) ∈ unitSteps root → ¬ Unread sources n) :
    Analysed (addFile sources graph file) d := by
  intro call inside kind
  have taken : (d, .meet call) ∈ unitSteps root :=
    (mem_unitSteps root d _).mpr ⟨visited, (mem_walkBelow d call).1.mpr inside⟩
  rw [addFile_eq, fullName_recorded, fileOperations_iff parsed]
  exact .inr (reaches_of_taken readable taken (.inl ⟨kind, rfl⟩))

/-- After a file a definition of its unit is analysed exactly when each of its
calls was recorded before, or is reached by the walk under the definition's
simple name. -/
theorem definition_analysed_iff (parsed : sources.parse file = some root) (graph : CallGraph) :
    ∀ d, Below d root → d.kind ∈ definitionKinds → (Analysed (addFile sources graph file) d ↔
      ∀ call, Below call d → call.kind = .callExpr →
        (Edge.of call).fullName ∈ fullNames graph (getMethodSimpleName d.node) ∨
        Reaches sources root (getMethodSimpleName d.node) (Edge.of call).fullName) := by
  intro d _ _
  refine forall_congr' fun call => imp_congr_right fun _ => imp_congr_right fun _ => ?_
  rw [addFile_eq, fullName_recorded, fileOperations_iff parsed]

/-- A function in a linkage block. -/
def linkedFunction : Cursor :=
  definitionOf (sampleFunction [unitNames] "android_init") 3 [callOf (sampleFunction [unitNames] "retain")]

def linkedUnit : Cursor :=
  unitOf [.mk { kind := .other "LINKAGE_SPEC", spelling := "", displayname := "" } none {} [linkedFunction]]

def linked : Sources :=
  sampleSources linkedUnit ["extern \"C\" \x7b void android_init() \x7b", "  retain();", "\x7d \x7d"]

theorem definition_analysed_iff_linked : linked.parse "f.cpp" = some linkedUnit ∧
    ∀ d, Below d linkedUnit → d.kind ∈ definitionKinds → (Analysed (addFile linked ∅ "f.cpp") d ↔
      ∀ call, Below call d → call.kind = .callExpr →
        (Edge.of call).fullName ∈ fullNames ∅ (getMethodSimpleName d.node) ∨
        Reaches linked linkedUnit (getMethodSimpleName d.node) (Edge.of call).fullName) :=
  ⟨rfl, definition_analysed_iff rfl ∅⟩

/-- The walk does not enter the block, while the listing of functions does. -/
theorem linked_not_analysed : linkedFunction ∈ extractMethodInNode linkedUnit ∧
    ¬ ∀ d, Below d linkedUnit → d.kind ∈ definitionKinds → Analysed (addFile linked ∅ "f.cpp") d := by
  refine ⟨List.mem_cons_self, fun all => ?_⟩
  have inside : Below linkedFunction linkedUnit := .deeper (.child List.mem_cons_self) List.mem_cons_self
  have called : Below (callOf (sampleFunction [unitNames] "retain")) linkedFunction :=
    .deeper (.child List.mem_cons_self) List.mem_cons_self
  have recorded := all linkedFunction inside (by decide) _ called rfl
  revert recorded
  decide +kernel

end JgreAnalysis.NativeDefinitions
