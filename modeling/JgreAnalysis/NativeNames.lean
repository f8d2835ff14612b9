import Mathlib.Data.List.TakeWhile
import JgreAnalysis.NativeDefinitions
import JgreAnalysis.SeparatedNames

/-! What the names of the native graph tell apart. A function is named after its
scopes, a destructor after its class alone, and a class that a strong pointer is
made for after its type. -/
namespace JgreAnalysis.NativeNames
open ClangCursor NativeCallGraph NativeDefinitions SeparatedNames

/-- The names of the scopes that enclose a declaration, outermost first. What
encloses the first named one has no name. -/
def outerScopes (semanticParents : List Names) : List String :=
  ((enclosing semanticParents).map Names.displayname).reverse.dropWhile (· = "")

/-- The name behind all its scopes, joined by `::`. -/
def qualifiedName (semanticParents : List Names) (name : String) : String :=
  (outerScopes semanticParents).foldr (fun scope rest => scope ++ "::" ++ rest) name

/-- The texts that a separator stands between. -/
def texts (names : List String) : List (List Char) := names.map String.toList

theorem qualifiedName_toList (semanticParents : List Names) (name : String) :
    (qualifiedName semanticParents name).toList = qualified "::".toList (texts (outerScopes semanticParents)) name.toList := by
  unfold qualifiedName texts
  induction outerScopes semanticParents with
  | nil => rfl
  | cons scope scopes ih => rw [List.foldr_cons, List.map_cons, qualified_cons, String.toList_append,
      String.toList_append, ih, List.append_assoc]

theorem outerScopes_eq_nil (semanticParents : List Names) :
    outerScopes semanticParents = [] ↔ fullyQualified semanticParents = "" := by
  rw [fullyQualified_eq_empty, outerScopes, List.dropWhile_eq_nil_iff]
  simp

theorem outerScopes_unit (c : Names) (unit : c.kind = .translationUnit) (semanticParents : List Names) :
    outerScopes (c :: semanticParents) = [] := by
  simp [outerScopes, enclosing, unit]

/-- A further scope is named behind the others, and alone where they have no
name. -/
theorem outerScopes_cons (c : Names) (ordinary : c.kind ≠ .translationUnit) (semanticParents : List Names) :
    outerScopes (c :: semanticParents) =
      if fullyQualified semanticParents = "" then [c.displayname].dropWhile (· = "")
      else outerScopes semanticParents ++ [c.displayname] := by
  have listed : enclosing (c :: semanticParents) = c :: enclosing semanticParents := by simp [enclosing, ordinary]
  rw [outerScopes, listed, List.map_cons, List.reverse_cons, List.dropWhile_append, ← outerScopes]
  simp only [List.isEmpty_iff, outerScopes_eq_nil]

/-- The qualified name is the name behind what the code joins of its scopes. -/
theorem qualifiedName_eq (semanticParents : List Names) (name : String) : qualifiedName semanticParents name =
    if fullyQualified semanticParents = "" then name else fullyQualified semanticParents ++ "::" ++ name := by
  induction semanticParents generalizing name with
  | nil => simp [qualifiedName, outerScopes, enclosing, fullyQualified]
  | cons c semanticParents ih =>
    by_cases unit : c.kind = .translationUnit
    · simp [qualifiedName, outerScopes_unit c unit, fullyQualified, unit]
    · rw [qualifiedName, outerScopes_cons c unit]
      by_cases bare : fullyQualified semanticParents = ""
      · have alone : fullyQualified (c :: semanticParents) = c.displayname := by simp [fullyQualified, unit, bare]
        rw [if_pos bare, alone]
        by_cases nameless : c.displayname = "" <;> simp [nameless]
      · have joined : fullyQualified (c :: semanticParents) = fullyQualified semanticParents ++ "::" ++ c.displayname := by
          simp [fullyQualified, unit, bare]
        have inner := ih (c.displayname ++ "::" ++ name)
        rw [if_neg bare, qualifiedName] at inner
        rw [if_neg bare, List.foldr_append, List.foldr_cons, List.foldr_nil, inner, joined]
        simp [String.append_eq_empty_iff, String.append_assoc]

/-- A declaration is named by its qualified name, with its display name or with
its spelling at the end. -/
theorem fullyQualified_cons (c : Names) (ordinary : c.kind ≠ .translationUnit) (semanticParents : List Names) :
    fullyQualified (c :: semanticParents) = qualifiedName semanticParents c.displayname ∧
    fullyQualifiedSpelling (c :: semanticParents) = qualifiedName semanticParents c.spelling := by
  rw [qualifiedName_eq, qualifiedName_eq]
  constructor
  · simp only [fullyQualified, if_neg ordinary, ne_eq, ite_not]
  · simp only [fullyQualifiedSpelling, if_neg ordinary, ne_eq, ite_not]

/-! ## The constructor of a strong pointer's class -/

/-- A class and its constructor, as libclang describes them: the constructor has
the name of the class and stands in it, and the type of the class is spelled by
its qualified name. -/
structure Constructed where
  cls : Node
  ctor : Node
  isClass : cls.kind = .classDecl
  isConstructor : ctor.kind = .constructor
  named : cls.spelling ≠ ""
  untemplated : cls.displayname = cls.spelling
  sameName : ctor.spelling = cls.spelling
  inside : ctor.semanticParents = cls.path
  typed : cls.typeSpelling = qualifiedName cls.semanticParents cls.spelling

theorem Constructed.ordinary (c : Constructed) : c.cls.kind ≠ .translationUnit := by
  simp [c.isClass]

/-- The definition side puts the bare name behind the name of the type. -/
theorem Constructed.constructor_name (c : Constructed) :
    getMethodSimpleName c.ctor = c.cls.typeSpelling ++ "::" ++ c.cls.spelling := by
  have scopes : fullyQualified c.cls.path = c.cls.typeSpelling := by
    rw [Node.path, (fullyQualified_cons _ c.ordinary _).1, c.untemplated, c.typed]
  have typeNamed : c.cls.typeSpelling ≠ "" := by
    rw [c.typed, qualifiedName_eq]
    split <;> simp [c.named, String.append_eq_empty_iff]
  have plain : c.ctor.kind ≠ .translationUnit := by simp [c.isConstructor]
  have spelled : getMethodSimpleName c.ctor = fullyQualifiedSpelling c.ctor.path := by
    simp [getMethodSimpleName, c.isConstructor]
  rw [spelled, Node.path, (fullyQualified_cons _ plain _).2, qualifiedName_eq, c.inside, scopes, if_neg typeNamed,
    c.sameName]

/-- The caller side doubles the name of the type. -/
theorem Constructed.edge_name (c : Constructed) (type : t.kind = .typeRef) (refers : t.refers = some c.cls) :
    (Edge.of t).simpleName = c.cls.typeSpelling ++ "::" ++ c.cls.typeSpelling := by
  have referenced : (Edge.of t).node = c.cls := by
    simp [Edge.of, Cursor.referenced, type, CursorKind.isDeclaration, refers]
  have plain : (Edge.of t).isExitPoint = false := rfl
  rw [Edge.simpleName, plain, referenced]
  simp [getMethodSimpleName, c.isClass]

/-- The edge of a strong pointer's initialisation leads to the constructor exactly
where the class stands in no named scope. -/
theorem constructor_linked_iff (c : Constructed) (t : Cursor) (type : t.kind = .typeRef)
    (refers : t.refers = some c.cls) :
    (Edge.of t).simpleName = getMethodSimpleName c.ctor ↔
      ∀ scope ∈ enclosing c.cls.semanticParents, scope.displayname = "" := by
  have bare := fullyQualifiedSpelling_eq_spelling c.cls.toNames c.ordinary c.cls.semanticParents
  rw [(fullyQualified_cons _ c.ordinary _).2, ← c.typed] at bare
  rw [c.edge_name type refers, c.constructor_name, ← bare]
  constructor
  · intro same
    exact String.append_right_inj _ |>.mp same
  · intro same
    rw [← same]

/-- A class below some scopes, with its constructor. -/
def constructedIn (scopes : List Names) (name : String) (named : name ≠ "") : Constructed where
  cls := { kind := .classDecl, spelling := name, displayname := name, typeSpelling := qualifiedName scopes name,
           semanticParents := scopes }
  ctor := { kind := .constructor, spelling := name, displayname := name ++ "()",
            semanticParents := ⟨.classDecl, name, name⟩ :: scopes }
  isClass := rfl
  isConstructor := rfl
  named := named
  untemplated := rfl
  sameName := rfl
  inside := rfl
  typed := rfl

def typeRefTo (cls : Node) : Cursor :=
  .mk { kind := .typeRef, spelling := "class " ++ cls.typeSpelling, displayname := "class " ++ cls.typeSpelling }
    (some cls) {} []

def android : Names := ⟨.nameSpace, "android", "android"⟩

def deathRecipient : Constructed := constructedIn [android, unitNames] "JavaDeathRecipient" (by decide)

theorem constructor_linked_iff_deathRecipient :
    (typeRefTo deathRecipient.cls).kind = .typeRef ∧ (typeRefTo deathRecipient.cls).refers = some deathRecipient.cls ∧
    ((Edge.of (typeRefTo deathRecipient.cls)).simpleName = getMethodSimpleName deathRecipient.ctor ↔
      ∀ scope ∈ enclosing deathRecipient.cls.semanticParents, scope.displayname = "") :=
  ⟨rfl, rfl, constructor_linked_iff deathRecipient (typeRefTo deathRecipient.cls) rfl rfl⟩

/-- In a namespace the caller's side names the namespace twice. -/
theorem deathRecipient_unlinked :
    (Edge.of (typeRefTo deathRecipient.cls)).simpleName = "android::JavaDeathRecipient::android::JavaDeathRecipient" ∧
    getMethodSimpleName deathRecipient.ctor = "android::JavaDeathRecipient::JavaDeathRecipient" ∧
    ¬ ∀ (c : Constructed) (t : Cursor), t.kind = .typeRef → t.refers = some c.cls →
      (Edge.of t).simpleName = getMethodSimpleName c.ctor := by
  have called : (Edge.of (typeRefTo deathRecipient.cls)).simpleName =
      "android::JavaDeathRecipient::android::JavaDeathRecipient" := by decide +kernel
  have defined : getMethodSimpleName deathRecipient.ctor = "android::JavaDeathRecipient::JavaDeathRecipient" := by
    decide +kernel
  refine ⟨called, defined, fun linked => ?_⟩
  have same := linked deathRecipient (typeRefTo deathRecipient.cls) rfl rfl
  rw [called, defined] at same
  exact absurd same (by decide)

/-! ## Definitions of different names -/

/-- The nesting of template brackets at the end of a text, nothing when a colon
stands outside them. -/
def nesting : ℕ → List Char → Option ℕ
  | depth, [] => some depth
  | depth, ch :: rest =>
    if ch = '<' then nesting (depth + 1) rest
    else if ch = '>' then nesting (depth - 1) rest
    else if ch = ':' ∧ depth = 0 then none
    else nesting depth rest

/-- The name of a namespace or a class: an identifier, and the closed list of the
arguments of a template behind it. -/
def IsScopeName (name : String) : Prop := nesting 0 name.toList = some 0

/-- The name of a function or an operator. -/
def IsFunctionName (name : String) : Prop := nesting 0 name.toList ≠ none

instance (name : String) : Decidable (IsScopeName name) := inferInstanceAs (Decidable (_ = _))

instance (name : String) : Decidable (IsFunctionName name) := inferInstanceAs (Decidable (_ ≠ _))

/-- A definition that the graph knows, with names that C++ can give. Only one
operator ends with a tilde, and no scope is named by its keyword. -/
structure Definition where
  node : Node
  defined : node.kind ∈ definitionKinds
  scopes : ∀ scope ∈ enclosing node.semanticParents,
    IsScopeName scope.displayname ∧ IsScopeName scope.spelling ∧ scope.spelling ≠ "operator"
  name : IsFunctionName node.spelling
  tilde : node.kind ≠ .destructor → node.spelling.toList.getLast? = some '~' → node.spelling = "operator~"
  inClass : node.kind = .destructor → ∀ scope ∈ node.semanticParents.head?, scope.kind ≠ .translationUnit

/-- The named scopes around a definition, innermost first. -/
def Definition.chain (d : Definition) : List String :=
  ((enclosing d.node.semanticParents).map Names.displayname).filter (· ≠ "")

/-- The name of the innermost class around a definition. -/
def Definition.innermost (d : Definition) : Option String := d.node.semanticParents.head?.map Names.spelling

theorem nesting_append (depth : ℕ) (first rest : List Char) :
    nesting depth (first ++ rest) = (nesting depth first).bind (nesting · rest) := by
  induction first generalizing depth with
  | nil => rfl
  | cons ch first ih =>
    simp only [List.cons_append, nesting, ih]
    split
    · rfl
    · split
      · rfl
      · split <;> rfl

theorem IsScopeName.isFunctionName (scope : IsScopeName name) : IsFunctionName name := by
  simp [IsFunctionName, show nesting 0 name.toList = some 0 from scope]

/-- A name goes on with no colon behind the name of a scope. -/
theorem unmistakable_names (scopes names : List String) (isScope : ∀ scope ∈ scopes, IsScopeName scope)
    (isName : ∀ name ∈ names, IsFunctionName name) : Unmistakable ':' (texts scopes) (texts names) := by
  intro scopeText scopeMember nameText nameMember
  obtain ⟨scope, listed, rfl⟩ := List.mem_map.mp scopeMember
  obtain ⟨name, named, rfl⟩ := List.mem_map.mp nameMember
  rintro ⟨more, split⟩
  have closed : nesting 0 scope.toList = some 0 := isScope scope listed
  refine isName name named ?_
  rw [← split, nesting_append, nesting_append, closed]
  rfl

theorem mem_outerScopes {semanticParents : List Names} (member : name ∈ outerScopes semanticParents) :
    ∃ scope ∈ enclosing semanticParents, scope.displayname = name := by
  have listed := (List.dropWhile_suffix _).subset member
  simpa using listed

theorem Definition.scopeNames (d : Definition) : ∀ name ∈ outerScopes d.node.semanticParents, IsScopeName name := by
  intro name member
  obtain ⟨scope, encloses, rfl⟩ := mem_outerScopes member
  exact (d.scopes scope encloses).1

theorem filter_dropWhile_not (p : α → Bool) (l : List α) : (l.dropWhile fun a => !p a).filter p = l.filter p := by
  induction l with
  | nil => rfl
  | cons a l ih =>
    by_cases kept : p a = true
    · simp [kept]
    · simpa [kept] using ih

/-- The chain of a definition is what is named of its scopes. -/
theorem Definition.chain_eq (d : Definition) :
    d.chain = ((outerScopes d.node.semanticParents).filter (· ≠ "")).reverse := by
  have same := filter_dropWhile_not (· ≠ "") ((enclosing d.node.semanticParents).map Names.displayname).reverse
  simp only [ne_eq, decide_not, Bool.not_not] at same
  unfold chain outerScopes
  simp only [ne_eq, decide_not, same, List.filter_reverse, List.reverse_reverse]

/-- All but the destructors are named by their scopes and their spelling. -/
theorem Definition.function_name (d : Definition) (function : d.node.kind ≠ .destructor) :
    (getMethodSimpleName d.node).toList =
      qualified "::".toList (texts (outerScopes d.node.semanticParents)) d.node.spelling.toList := by
  have kinds := d.defined
  have ordinary : d.node.kind ≠ .translationUnit := by
    intro unit
    simp [unit, definitionKinds] at kinds
  have spelled : getMethodSimpleName d.node = fullyQualifiedSpelling d.node.path := by
    unfold getMethodSimpleName
    rw [if_neg (by rintro (type | cls) <;> simp [*, definitionKinds] at kinds), dif_neg function]
  rw [spelled, Node.path, (fullyQualified_cons _ ordinary _).2, qualifiedName_toList]

/-- A destructor is named by its class alone. -/
theorem Definition.destructor_name (d : Definition) (destructor : d.node.kind = .destructor) :
    ∃ scope ∈ enclosing d.node.semanticParents, d.innermost = some scope.spelling ∧
      getMethodSimpleName d.node = scope.spelling ++ "::" ++ scope.spelling ++ "~" := by
  have inside := d.node.member destructor
  have cls := d.inClass destructor
  have named : getMethodSimpleName d.node = (d.node.semanticParents.head inside).spelling ++ "::" ++
      (d.node.semanticParents.head inside).spelling ++ "~" := by
    simp [getMethodSimpleName, destructor]
  unfold innermost
  cases parents : d.node.semanticParents with
  | nil => exact absurd parents inside
  | cons scope scopes =>
    simp only [parents, List.head_cons] at named cls
    have ordinary := cls scope (by simp)
    exact ⟨scope, by simp [enclosing, ordinary], rfl, named⟩

/-- Two functions of one name are the same but for overloading. -/
theorem Definition.functions_same (d other : Definition) (function : d.node.kind ≠ .destructor)
    (another : other.node.kind ≠ .destructor) (same : getMethodSimpleName d.node = getMethodSimpleName other.node) :
    d.chain = other.chain ∧ d.node.spelling = other.node.spelling := by
  have names (first second : Definition) : ∀ name ∈ second.node.spelling :: outerScopes second.node.semanticParents,
      IsFunctionName name :=
    List.forall_mem_cons.mpr ⟨second.name, fun name member => (second.scopeNames name member).isFunctionName⟩
  have written := congrArg String.toList same
  rw [d.function_name function, other.function_name another] at written
  obtain ⟨scopes, spelling⟩ := qualified_injective
    (unmistakable_names _ _ d.scopeNames (names d other)) (unmistakable_names _ _ other.scopeNames (names other d)) written
  have outer : outerScopes d.node.semanticParents = outerScopes other.node.semanticParents :=
    List.map_injective_iff.mpr (fun _ _ => String.toList_inj.mp) scopes
  exact ⟨by rw [d.chain_eq, other.chain_eq, outer], String.toList_inj.mp spelling⟩

/-- No other function is named as a destructor. -/
theorem Definition.destructor_apart (d other : Definition) (destructor : d.node.kind = .destructor)
    (function : other.node.kind ≠ .destructor) : getMethodSimpleName d.node ≠ getMethodSimpleName other.node := by
  intro same
  obtain ⟨scope, encloses, _, named⟩ := d.destructor_name destructor
  obtain ⟨_, isScope, notOperator⟩ := d.scopes scope encloses
  have isName : IsFunctionName (scope.spelling ++ "~") := by
    have closed : nesting 0 scope.spelling.toList = some 0 := isScope
    rw [IsFunctionName, String.toList_append, nesting_append, closed]
    decide
  have written := congrArg String.toList same
  rw [named, other.function_name function] at written
  have split : (scope.spelling ++ "::" ++ scope.spelling ++ "~").toList =
      qualified "::".toList (texts [scope.spelling]) (scope.spelling ++ "~").toList := by
    simp [qualified, texts]
  rw [split] at written
  obtain ⟨_, spelling⟩ := qualified_injective
    (unmistakable_names _ (other.node.spelling :: _) (by simpa using isScope)
      (List.forall_mem_cons.mpr ⟨other.name, fun name member => (other.scopeNames name member).isFunctionName⟩))
    (unmistakable_names _ [_, _] other.scopeNames (by simpa using ⟨isName, isScope.isFunctionName⟩)) written
  have spelled : other.node.spelling = scope.spelling ++ "~" := (String.toList_inj.mp spelling).symm
  have operator := other.tilde function (by simp [spelled])
  rw [spelled] at operator
  have split : scope.spelling ++ "~" = "operator" ++ "~" := operator
  exact notOperator (String.append_left_inj "~" |>.mp split)

/-- Destructors share a name where their classes are spelled alike. -/
theorem Definition.destructors_same_iff (d other : Definition) (destructor : d.node.kind = .destructor)
    (another : other.node.kind = .destructor) :
    getMethodSimpleName d.node = getMethodSimpleName other.node ↔ d.innermost = other.innermost := by
  obtain ⟨scope, _, inside, named⟩ := d.destructor_name destructor
  obtain ⟨second, _, insideSecond, namedSecond⟩ := other.destructor_name another
  rw [inside, insideSecond, named, namedSecond, Option.some.injEq]
  constructor
  · intro same
    have written := congrArg String.toList ((String.append_left_inj "~").mp same)
    simp only [String.toList_append] at written
    have lengths := congrArg List.length written
    simp only [List.length_append] at lengths
    have equal : scope.spelling.toList.length = second.spelling.toList.length := by omega
    exact String.toList_inj.mp (List.append_inj_right written (by simp [equal]))
  · intro same
    rw [same]

/-- Definitions with different scopes or different names of their own are stored
under different names, but for two destructors of classes that are spelled
alike. -/
theorem names_differ_iff (d other : Definition)
    (apart : d.chain ≠ other.chain ∨ d.node.spelling ≠ other.node.spelling) :
    getMethodSimpleName d.node ≠ getMethodSimpleName other.node ↔
      ¬ (d.node.kind = .destructor ∧ other.node.kind = .destructor ∧ d.innermost = other.innermost) := by
  by_cases destructor : d.node.kind = .destructor
  · by_cases another : other.node.kind = .destructor
    · simp [destructor, another, d.destructors_same_iff other]
    · simp [another, d.destructor_apart other destructor another]
  · by_cases another : other.node.kind = .destructor
    · simp [destructor, (other.destructor_apart d another destructor).symm]
    · have differ : getMethodSimpleName d.node ≠ getMethodSimpleName other.node := by
        intro same
        obtain ⟨chain, spelling⟩ := d.functions_same other destructor another same
        exact apart.elim (· chain) (· spelling)
      simp [destructor, differ]

/-- The destructor of a class in a namespace. -/
def destructorIn (scope cls : String) (scopeName : IsScopeName scope ∧ scope ≠ "operator")
    (className : IsScopeName cls ∧ cls ≠ "operator") (name : IsFunctionName ("~" ++ cls)) : Definition where
  node := { kind := .destructor, spelling := "~" ++ cls, displayname := "~" ++ cls ++ "()",
            semanticParents := [⟨.classDecl, cls, cls⟩, ⟨.nameSpace, scope, scope⟩, unitNames] }
  defined := by simp [definitionKinds]
  scopes := by simp [enclosing, unitNames, scopeName, className]
  name := name
  tilde := by simp
  inClass := by simp

/-- `android::Looper::~Looper` and `nativetool::Looper::~Looper` -/
def looper : Definition := destructorIn "android" "Looper" (by decide) (by decide) (by decide)

def toolLooper : Definition := destructorIn "nativetool" "Looper" (by decide) (by decide) (by decide)

theorem names_differ_iff_loopers : (looper.chain ≠ toolLooper.chain ∨ looper.node.spelling ≠ toolLooper.node.spelling) ∧
    (getMethodSimpleName looper.node ≠ getMethodSimpleName toolLooper.node ↔
      ¬ (looper.node.kind = .destructor ∧ toolLooper.node.kind = .destructor ∧ looper.innermost = toolLooper.innermost)) :=
  have apart : looper.chain ≠ toolLooper.chain ∨ looper.node.spelling ≠ toolLooper.node.spelling := by decide
  ⟨apart, names_differ_iff looper toolLooper apart⟩

/-- Both destructors are stored as `Looper::Looper~`. -/
theorem loopers_merged :
    looper.chain = ["Looper", "android"] ∧ toolLooper.chain = ["Looper", "nativetool"] ∧
    getMethodSimpleName looper.node = "Looper::Looper~" ∧ getMethodSimpleName toolLooper.node = "Looper::Looper~" ∧
    ¬ ∀ d other : Definition, d.chain ≠ other.chain ∨ d.node.spelling ≠ other.node.spelling →
      getMethodSimpleName d.node ≠ getMethodSimpleName other.node := by
  have named : getMethodSimpleName looper.node = "Looper::Looper~" ∧
      getMethodSimpleName toolLooper.node = "Looper::Looper~" := by decide +kernel
  refine ⟨by decide, by decide, named.1, named.2, fun differ => ?_⟩
  exact differ looper toolLooper (.inl (by decide)) (named.1.trans named.2.symm)

end JgreAnalysis.NativeNames
