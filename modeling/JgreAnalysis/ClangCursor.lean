import JgreAnalysis.SootModel

/-! The cursors of a parsed translation unit, as far as the native analysis reads
them, and the names it builds for them. Parsing itself is libclang's. -/
namespace JgreAnalysis.ClangCursor
open SootModel

/-- `CursorKind`, with one constructor for the kinds that no function asks for. -/
inductive CursorKind where
  | translationUnit
  | nameSpace
  | classDecl
  | functionDecl
  | cxxMethod
  | constructor
  | destructor
  | varDecl
  | callExpr
  | templateRef
  | typeRef
  | other (name : String)
  deriving DecidableEq, Repr

structure Names where
  kind : CursorKind
  spelling : String
  displayname : String
  deriving DecidableEq, Repr

/-- A cursor as the naming functions see it: its own names and those of its
semantic parents, innermost first. A destructor is declared in a class. -/
structure Node extends Names where
  typeSpelling : String := ""
  semanticParents : List Names := []
  member : kind = .destructor → semanticParents ≠ [] := by simp
  deriving DecidableEq, Repr

/-- A cursor and its semantic parents. -/
def Node.path (c : Node) : List Names := c.toNames :: c.semanticParents

/-- Where a cursor stands in the source: its file and its lines. -/
structure Extent where
  file : String := ""
  start : ℕ := 0
  stop : ℕ := 0
  deriving DecidableEq, Repr

/-- A cursor in its tree. A reference or a call may refer to a declaration. -/
inductive Cursor where
  | mk (node : Node) (refers : Option Node) (extent : Extent) (children : List Cursor)

def Cursor.node : Cursor → Node
  | .mk node _ _ _ => node

def Cursor.refers : Cursor → Option Node
  | .mk _ refers _ _ => refers

def Cursor.extent : Cursor → Extent
  | .mk _ _ extent _ => extent

def Cursor.children : Cursor → List Cursor
  | .mk _ _ _ children => children

def Cursor.kind (c : Cursor) : CursorKind := c.node.kind

def Cursor.spelling (c : Cursor) : String := c.node.spelling

def CursorKind.isDeclaration : CursorKind → Bool
  | .nameSpace | .classDecl | .functionDecl | .cxxMethod | .constructor | .destructor | .varDecl => true
  | _ => false

/-- `Cursor.referenced`: a declaration refers to itself. -/
def Cursor.referenced (c : Cursor) : Option Node :=
  if c.kind.isDeclaration then some c.node else c.refers

/-- The name of a cursor given with its semantic parents. The list is empty
where Python has `None`. -/
def fullyQualified : List Names → String
  | [] => ""
  | c :: semanticParents =>
    if c.kind = .translationUnit then ""
    else
      let res := fullyQualified semanticParents
      if res ≠ "" then res ++ "::" ++ c.displayname else c.displayname

def fullyQualifiedSpelling : List Names → String
  | [] => ""
  | c :: semanticParents =>
    if c.kind = .translationUnit then ""
    else
      let res := fullyQualified semanticParents
      if res ≠ "" then res ++ "::" ++ c.spelling else c.spelling

def getMethodSimpleName (node : Node) : String :=
  if node.kind = .typeRef ∨ node.kind = .classDecl then node.typeSpelling ++ "::" ++ node.typeSpelling
  else if destructor : node.kind = .destructor then
    let ref := node.semanticParents.head (node.member destructor)
    ref.spelling ++ "::" ++ ref.spelling ++ "~"
  else fullyQualifiedSpelling node.path

mutual
/-- `extract_method_in_node`: the function declarations below a cursor, at any
depth. -/
def extractMethodInNode : Cursor → List Cursor
  | .mk _ _ _ children => extractMethodsInNodes children

def extractMethodsInNodes : List Cursor → List Cursor
  | [] => []
  | n :: rest =>
    (if n.kind = .functionDecl then [n] else []) ++ extractMethodInNode n ++ extractMethodsInNodes rest
end

/-- The first cursor stands somewhere in the tree below the second. -/
inductive Below : Cursor → Cursor → Prop where
  | child : c ∈ root.children → Below c root
  | deeper : Below c child → child ∈ root.children → Below c root

theorem mem_extractMethodsInNodes (nodes : List Cursor) (f : Cursor) : f ∈ extractMethodsInNodes nodes ↔
    ∃ n ∈ nodes, (f = n ∧ n.kind = .functionDecl) ∨ f ∈ extractMethodInNode n := by
  induction nodes with
  | nil => simp [extractMethodsInNodes]
  | cons n rest ih =>
    simp only [extractMethodsInNodes, List.mem_append, ih, List.exists_mem_cons_iff]
    by_cases function : n.kind = .functionDecl <;> simp [function]

theorem sizeOf_child (root : Cursor) (member : n ∈ root.children) : sizeOf n < sizeOf root := by
  cases root with
  | mk node refers extent children =>
    have smaller := List.sizeOf_lt_of_mem (show n ∈ children from member)
    simp only [Cursor.mk.sizeOf_spec]
    omega

theorem extractMethodInNode_eq (root : Cursor) : extractMethodInNode root = extractMethodsInNodes root.children := by
  cases root
  rfl

theorem below_of_mem (root : Cursor) (found : f ∈ extractMethodInNode root) : Below f root ∧ f.kind = .functionDecl := by
  rw [extractMethodInNode_eq] at found
  obtain ⟨n, member, ⟨rfl, function⟩ | deep⟩ := (mem_extractMethodsInNodes _ f).mp found
  · exact ⟨.child member, function⟩
  · obtain ⟨inside, function⟩ := below_of_mem n deep
    exact ⟨.deeper inside member, function⟩
termination_by sizeOf root
decreasing_by exact sizeOf_child root member

/-- The listing has every function declaration of the tree, and nothing else. -/
theorem mem_extractMethodInNode (root f : Cursor) :
    f ∈ extractMethodInNode root ↔ Below f root ∧ f.kind = .functionDecl := by
  constructor
  · exact below_of_mem root
  · rintro ⟨inside, function⟩
    induction inside with
    | child member =>
      rw [extractMethodInNode_eq]
      exact (mem_extractMethodsInNodes _ _).mpr ⟨f, member, .inl ⟨rfl, function⟩⟩
    | deeper _ member ih =>
      rw [extractMethodInNode_eq]
      exact (mem_extractMethodsInNodes _ _).mpr ⟨_, member, .inr ih⟩

mutual
/-- Whether the binding knows the kinds of all cursors below one. Reading another
kind raises a `ValueError`. -/
def kindsKnown (knows : CursorKind → Bool) : Cursor → Bool
  | .mk _ _ _ children => kindsKnownIn knows children

def kindsKnownIn (knows : CursorKind → Bool) : List Cursor → Bool
  | [] => true
  | n :: rest => knows n.kind && kindsKnown knows n && kindsKnownIn knows rest
end

theorem kindsKnown_eq (knows : CursorKind → Bool) (root : Cursor) : kindsKnown knows root = kindsKnownIn knows root.children := by
  cases root
  rfl

theorem kindsKnownIn_iff (knows : CursorKind → Bool) (nodes : List Cursor) :
    kindsKnownIn knows nodes = true ↔ ∀ n ∈ nodes, knows n.kind = true ∧ kindsKnown knows n = true := by
  induction nodes with
  | nil => simp [kindsKnownIn]
  | cons n rest ih => simp [kindsKnownIn, ih]

theorem known_of_below (knows : CursorKind → Bool) (inside : Below c root) (known : kindsKnown knows root = true) :
    knows c.kind = true := by
  induction inside with
  | child member =>
    rw [kindsKnown_eq, kindsKnownIn_iff] at known
    exact (known _ member).1
  | deeper _ member ih =>
    rw [kindsKnown_eq, kindsKnownIn_iff] at known
    exact ih (known _ member).2

theorem kindsKnown_of_below (knows : CursorKind → Bool) (root : Cursor) (known : ∀ c, Below c root → knows c.kind = true) :
    kindsKnown knows root = true := by
  rw [kindsKnown_eq, kindsKnownIn_iff]
  intro n member
  exact ⟨known n (.child member), kindsKnown_of_below knows n fun c inside => known c (.deeper inside member)⟩
termination_by sizeOf root
decreasing_by exact sizeOf_child root member

theorem kindsKnown_iff (knows : CursorKind → Bool) (root : Cursor) :
    kindsKnown knows root = true ↔ ∀ c, Below c root → knows c.kind = true :=
  ⟨fun known _ inside => known_of_below knows inside known, kindsKnown_of_below knows root⟩

/-- The scopes that enclose a declaration, up to the translation unit. -/
def enclosing (semanticParents : List Names) : List Names :=
  semanticParents.takeWhile fun scope => scope.kind ≠ .translationUnit

/-- A chain of scopes has no name exactly when none of them has one. -/
theorem fullyQualified_eq_empty (scopes : List Names) :
    fullyQualified scopes = "" ↔ ∀ scope ∈ enclosing scopes, scope.displayname = "" := by
  induction scopes with
  | nil => simp [fullyQualified, enclosing]
  | cons c scopes ih =>
    by_cases unit : c.kind = .translationUnit
    · simp [fullyQualified, enclosing, unit]
    · have listed : enclosing (c :: scopes) = c :: enclosing scopes := by simp [enclosing, unit]
      rw [listed, List.forall_mem_cons, ← ih]
      simp only [fullyQualified, if_neg unit]
      by_cases bare : fullyQualified scopes = ""
      · simp [bare]
      · simp [bare, String.append_eq_empty_iff]

/-- A function is named by its spelling alone exactly when its enclosing scopes
have no names. -/
theorem fullyQualifiedSpelling_eq_spelling (c : Names) (ordinary : c.kind ≠ .translationUnit) (scopes : List Names) :
    fullyQualifiedSpelling (c :: scopes) = c.spelling ↔ ∀ scope ∈ enclosing scopes, scope.displayname = "" := by
  rw [← fullyQualified_eq_empty]
  simp only [fullyQualifiedSpelling, if_neg ordinary]
  by_cases bare : fullyQualified scopes = ""
  · simp [bare]
  · rw [if_pos bare]
    constructor
    · intro same
      have lengths := congrArg String.length same
      simp only [String.length_append] at lengths
      have colons : "::".length = 2 := rfl
      omega
    · intro empty
      exact absurd empty bare

end JgreAnalysis.ClangCursor
