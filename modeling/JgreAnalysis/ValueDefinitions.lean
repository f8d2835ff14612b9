import JgreAnalysis.JimpleValueSolver

/-! What the value solver follows. In every round it takes the first statement
that has a class for the value, and it compares both sides of a statement only
after taking them down to the local they are about. So it follows definitions,
except where it takes a store into a field of the local for one. -/
namespace JgreAnalysis.ValueDefinitions
open SootModel FrameworkScene LoopLaws JimpleValueSolver

variable (f : Framework)

/-- A statement with a class for a value, and the right side behind it. -/
structure Offer where
  statement : Stmt
  assign : Value
  cls : SootClass

/-- What a statement has to say about the value. -/
def offer (curCls : SootClass) (curVal : Value) (u : Stmt) : Except ResolutionFailed (Option Offer) :=
  match definitionOf u with
  | some (leftOp, assign) =>
    if sameLocal (getExprValue leftOp) curVal ∧ isNull assign = false then
      (definedClass f curCls assign).map (Option.map (Offer.mk u assign))
    else .ok none
  | none => .ok none

/-- The statement that a round over the body of a method takes. -/
def firstOffer (mtd : SootMethod) (v : Value) : Except ResolutionFailed (Option Offer) :=
  (f.units mtd).findSomeM? (offer f mtd.declaringClass (getExprValue v))

/-- The statements that rounds in a row take from a value, to the class at the
last of them. -/
inductive Taken (mtd : SootMethod) : List Stmt → Value → SootClass → Prop where
  | last : firstOffer f mtd v = .ok (some ⟨u, assign, cls⟩) → Taken mtd [u] v cls
  | next : firstOffer f mtd v = .ok (some ⟨u, assign, other⟩) → Taken mtd steps assign cls →
      Taken mtd (u :: steps) v cls

/-- The left side of the statement is the local itself that the value is about. -/
def Defines (v : Value) (u : Stmt) (assign : Value) : Prop :=
  ∃ l, definitionOf u = some (.immediate (.loc l), assign) ∧ getExprValue v = .immediate (.loc l)

/-- Definitions in a row from a value, to the class of the last right side. -/
inductive Defined (mtd : SootMethod) : List Stmt → Value → SootClass → Prop where
  | last : u ∈ f.units mtd → Defines v u assign → definedClass f mtd.declaringClass assign = .ok (some cls) →
      Defined mtd [u] v cls
  | next : u ∈ f.units mtd → Defines v u assign → Defined mtd steps assign cls → Defined mtd (u :: steps) v cls

/-- The left side of the statement is a local. -/
def definesLocal (u : Stmt) : Bool :=
  match definitionOf u with
  | some (.immediate (.loc _), _) => true
  | _ => false

/-- The callback, with the class that it accepted written down. -/
def recording (checkAndGetCls : SootClass → StateM σ Bool) (cls : SootClass) : StateM (Option SootClass × σ) Bool :=
  fun (seen, state) =>
    let (find, next) := checkAndGetCls cls state
    (find, if find then some cls else seen, next)

/-- The search passes a class to the callback that it accepts. -/
def Accepted (checkAndGetCls : SootClass → StateM σ Bool) (v : Value) (mtd : SootMethod) (deep : ℕ) (state : σ)
    (cls : SootClass) : Prop :=
  ∃ final, startToSearchValue f (recording checkAndGetCls) v mtd deep (none, state) = .ok ((), some cls, final)

variable {f}

/-! ## The rounds of a search -/

theorem recording_apply (checkAndGetCls : SootClass → StateM σ Bool) (cls : SootClass) (seen : Option SootClass)
    (state : σ) : recording checkAndGetCls cls (seen, state) = ((checkAndGetCls cls state).1,
      if (checkAndGetCls cls state).1 then some cls else seen, (checkAndGetCls cls state).2) := rfl

/-- A statement is passed over, or the callback decides about its class. -/
theorem visitUnit_eq (checkAndGetCls : SootClass → StateM σ Bool) (curCls : SootClass) (curVal : Value) (u : Stmt)
    (state : σ) : visitUnit f checkAndGetCls curCls curVal u state =
      match offer f curCls curVal u with
      | .error problem => .error problem
      | .ok none => .ok (none, state)
      | .ok (some found) =>
        .ok (some (if (checkAndGetCls found.cls state).1 then .found else .next found.assign),
          (checkAndGetCls found.cls state).2) := by
  unfold visitUnit offer
  cases definition : definitionOf u with
  | none => rfl
  | some sides =>
    obtain ⟨leftOp, assign⟩ := sides
    simp only [resolveValueFromDefinitionStmt]
    split
    · cases known : definedClass f curCls assign with
      | error problem => rfl
      | ok cls =>
        cases cls with
        | none => rfl
        | some cls =>
          simp only [bind, StateT.bind, Except.bind, liftM, monadLift, MonadLift.monadLift, StateT.lift, pure,
            Except.pure, Except.map, Option.map]
          obtain ⟨find, next⟩ := checkAndGetCls cls state
          cases find <;> rfl
    · rfl

/-- The loop over a body stops at the first statement with a class. -/
theorem visitUnits_eq (checkAndGetCls : SootClass → StateM σ Bool) (curCls : SootClass) (curVal : Value)
    (units : List Stmt) (state : σ) : units.findSomeM? (visitUnit f checkAndGetCls curCls curVal) state =
      match units.findSomeM? (offer f curCls curVal) with
      | .error problem => .error problem
      | .ok none => .ok (none, state)
      | .ok (some found) =>
        .ok (some (if (checkAndGetCls found.cls state).1 then .found else .next found.assign),
          (checkAndGetCls found.cls state).2) := by
  induction units with
  | nil => rfl
  | cons u units ih =>
    rw [loop_cons, plain_cons, visitUnit_eq]
    cases offer f curCls curVal u with
    | error problem => rfl
    | ok found =>
      cases found with
      | none => exact ih
      | some found => rfl

/-- The search for one value, with the levels that are left. -/
abbrev searchValue (checkAndGetCls : SootClass → StateM σ Bool) (mtd : SootMethod) (lev : ℕ) (v : Value) : Solving σ Unit :=
  searchValues f checkAndGetCls mtd.declaringClass (f.units mtd) lev [v]

/-- One round: nothing is found, or the callback takes a class, or the search goes
on with the right side behind it. -/
theorem search_round (checkAndGetCls : SootClass → StateM σ Bool) (mtd : SootMethod) (lev : ℕ) (v : Value) (state : σ) :
    searchValue (f := f) checkAndGetCls mtd (lev + 1) v state =
      match firstOffer f mtd v with
      | .error problem => .error problem
      | .ok none => .ok ((), state)
      | .ok (some found) =>
        if (checkAndGetCls found.cls state).1 then .ok ((), (checkAndGetCls found.cls state).2)
        else searchValue (f := f) checkAndGetCls mtd lev found.assign (checkAndGetCls found.cls state).2 := by
  simp only [searchValue, searchValues, bind, StateT.bind, Except.bind, visitUnits_eq, firstOffer]
  cases (f.units mtd).findSomeM? (offer f mtd.declaringClass (getExprValue v)) with
  | error problem => rfl
  | ok found =>
    cases found with
    | none => cases lev <;> rfl
    | some found =>
      simp only
      cases (checkAndGetCls found.cls state).1 <;> rfl

/-- A method without a body offers nothing, so the search is one over the
statements in any case. -/
theorem startToSearchValue_eq (checkAndGetCls : SootClass → StateM σ Bool) (v : Value) (mtd : SootMethod) (deep : ℕ)
    (state : σ) : startToSearchValue f checkAndGetCls v mtd deep state = searchValue (f := f) checkAndGetCls mtd deep v state := by
  unfold startToSearchValue
  cases body : f.retrieveActiveBody mtd with
  | some body => simp only [searchValue, Program.units, body]
  | none =>
    cases deep with
    | zero => rfl
    | succ lev =>
      have empty : f.units mtd = [] := by simp [Program.units, body]
      have nothing : firstOffer f mtd v = .ok none := by
        rw [firstOffer, empty]
        rfl
      simp only [search_round, nothing]
      rfl

/-! ## Accepted classes -/

/-- A class that is accepted stands at the end of the statements taken. -/
theorem taken_of_accepted (accepted : Accepted f checkAndGetCls v mtd deep state cls) :
    ∃ steps, steps.length ≤ deep ∧ Taken f mtd steps v cls := by
  obtain ⟨final, ran⟩ := accepted
  rw [startToSearchValue_eq] at ran
  induction deep generalizing v state with
  | zero => cases ran
  | succ lev ih =>
    rw [search_round] at ran
    cases first : firstOffer f mtd v with
    | error problem => simp [first] at ran
    | ok found =>
      cases found with
      | none => simp [first] at ran
      | some found =>
        simp only [first, recording_apply] at ran
        cases find : (checkAndGetCls found.cls state).1 with
        | true =>
          simp only [find, if_true, Except.ok.injEq, Prod.mk.injEq, Option.some.injEq, true_and] at ran
          exact ⟨[found.statement], by simp, ran.1 ▸ .last first⟩
        | false =>
          simp only [find, Bool.false_eq_true, if_false] at ran
          obtain ⟨steps, short, taken⟩ := ih ran
          exact ⟨found.statement :: steps, by simpa using short, .next first taken⟩

/-- A callback that rejects so many classes and accepts the next one. -/
def acceptAfter (_ : SootClass) : StateM ℕ Bool := fun left => (left == 0, left - 1)

/-- Any class that statements lead to within the bound is accepted by some
callback. -/
theorem accepted_of_taken (taken : Taken f mtd steps v cls) (short : steps.length ≤ deep) :
    Accepted f acceptAfter v mtd deep (steps.length - 1) cls := by
  unfold Accepted
  rw [startToSearchValue_eq]
  induction taken generalizing deep with
  | last first =>
    obtain ⟨lev, rfl⟩ : ∃ lev, deep = lev + 1 := Nat.exists_eq_add_of_le' short
    rw [search_round, first]
    exact ⟨0, rfl⟩
  | @next v u assign other steps cls first taken ih =>
    obtain ⟨lev, rfl⟩ : ∃ lev, deep = lev + 1 := Nat.exists_eq_add_of_le' (Nat.le_trans (by simp) short)
    obtain ⟨final, ran⟩ := ih (Nat.le_of_succ_le_succ short)
    have more : steps.length ≠ 0 := by
      cases taken <;> simp
    refine ⟨final, ?_⟩
    rw [search_round, first]
    simpa [recording, acceptAfter, more] using ran

/-! ## Statements taken and definitions -/

theorem sameLocal_iff (leftVal curVal : Value) :
    sameLocal leftVal curVal = true ↔ ∃ l, leftVal = .immediate (.loc l) ∧ curVal = .immediate (.loc l) := by
  unfold sameLocal
  split
  · rename_i left cur
    constructor
    · intro same
      exact ⟨left, rfl, by rw [beq_iff_eq.mp same]⟩
    · rintro ⟨l, one, other⟩
      cases one
      cases other
      exact beq_self_eq_true _
  · rename_i different
    simp only [Bool.false_eq_true, false_iff]
    rintro ⟨l, rfl, rfl⟩
    exact different l l rfl rfl

/-- A statement is taken for its left side, a local or something about it, and
gives the class of its right side. -/
theorem firstOffer_spec (first : firstOffer f mtd v = .ok (some found)) :
    found.statement ∈ f.units mtd ∧ (∃ leftOp l, definitionOf found.statement = some (leftOp, found.assign) ∧
      getExprValue leftOp = .immediate (.loc l) ∧ getExprValue v = .immediate (.loc l)) ∧
    definedClass f mtd.declaringClass found.assign = .ok (some found.cls) := by
  obtain ⟨before, u, after, split, _, offered⟩ := (plain_found_iff _ _ _).mp first
  unfold offer at offered
  cases definition : definitionOf u with
  | none => simp [definition] at offered
  | some sides =>
    obtain ⟨leftOp, assign⟩ := sides
    simp only [definition] at offered
    split at offered
    · rename_i here
      cases known : definedClass f mtd.declaringClass assign with
      | error problem => simp [known, Except.map] at offered
      | ok cls =>
        cases cls with
        | none => simp [known, Except.map] at offered
        | some cls =>
          rw [known] at offered
          cases offered
          obtain ⟨l, left, cur⟩ := (sameLocal_iff _ _).mp here.1
          exact ⟨by simp [split], ⟨leftOp, l, definition, left, cur⟩, known⟩
    · cases offered

/-- A taken statement whose left side is a local defines the value. -/
theorem defines_of_taken (first : firstOffer f mtd v = .ok (some found)) (plain : definesLocal found.statement = true) :
    Defines v found.statement found.assign := by
  obtain ⟨_, ⟨leftOp, l, definition, left, cur⟩, _⟩ := firstOffer_spec first
  unfold definesLocal at plain
  rw [definition] at plain
  split at plain
  · rename_i same
    cases same
    cases left
    exact ⟨l, definition, cur⟩
  · cases plain

/-- Statements taken are definitions in a row when none of them is a store. -/
theorem defined_of_taken (taken : Taken f mtd steps v cls) (plain : ∀ u ∈ steps, definesLocal u = true) :
    Defined f mtd steps v cls := by
  induction taken with
  | last first =>
    obtain ⟨inside, _, known⟩ := firstOffer_spec first
    exact .last inside (defines_of_taken first (plain _ List.mem_cons_self)) known
  | next first _ ih =>
    obtain ⟨inside, _, _⟩ := firstOffer_spec first
    exact .next inside (defines_of_taken first (plain _ List.mem_cons_self))
      (ih fun u member => plain u (List.mem_cons_of_mem _ member))

/-- Every class that a search accepts stands at the end of definitions exactly
when the classes do to which the search comes through a store. -/
theorem accepted_defined_iff (f : Framework) (v : Value) (mtd : SootMethod) (deep : ℕ) :
    (∀ (σ : Type) (checkAndGetCls : SootClass → StateM σ Bool) (state : σ) (cls : SootClass),
      Accepted f checkAndGetCls v mtd deep state cls → ∃ steps, steps.length ≤ deep ∧ Defined f mtd steps v cls) ↔
    ∀ steps cls, steps.length ≤ deep → Taken f mtd steps v cls → (∃ u ∈ steps, definesLocal u = false) →
      ∃ definitions, definitions.length ≤ deep ∧ Defined f mtd definitions v cls := by
  constructor
  · intro follows steps cls short taken _
    exact follows ℕ acceptAfter _ cls (accepted_of_taken taken short)
  · intro covered σ checkAndGetCls state cls accepted
    obtain ⟨steps, short, taken⟩ := taken_of_accepted accepted
    by_cases store : ∃ u ∈ steps, definesLocal u = false
    · exact covered steps cls short taken store
    · have plain : ∀ u ∈ steps, definesLocal u = true := by simpa using store
      exact ⟨steps, short, defined_of_taken taken plain⟩

/-- A callback that accepts every class. -/
def acceptAll (_ : SootClass) : StateM Unit Bool := pure true

def service : Local := ⟨"service", 0⟩

def helper : Local := ⟨"helper", 1⟩

/-- A body that puts a helper into a field of a service before it makes a new
one. -/
def storing : Framework :=
  { sampleFramework (sampleProgram fun _ =>
      [.assign (.immediate (.loc service)) (.immediate (.constant "null")),
        .assign (.immediate (.loc helper)) (.newExpr ⟨"Helper"⟩),
        .assign (.instanceFieldRef service ⟨"mHelper", .refType ⟨"Helper"⟩⟩) (.immediate (.loc helper)),
        .assign (.immediate (.loc service)) (.newExpr ⟨"Service"⟩)]) with
    localType := fun l => if l = helper then .refType ⟨"Helper"⟩ else nullType }

theorem storing_defined (defined : Defined storing (sampleMethod "entry") steps (.immediate (.loc service)) cls) :
    cls = ⟨"Service"⟩ := by
  have only {u : Stmt} {assign : Value} (inside : u ∈ storing.units (sampleMethod "entry"))
      (defines : Defines (.immediate (.loc service)) u assign) :
      assign = .newExpr ⟨"Service"⟩ ∨ assign = .immediate (.constant "null") := by
    obtain ⟨l, definition, cur⟩ := defines
    cases cur
    have listed : u ∈ [_, _, _, _] := inside
    simp only [List.mem_cons, List.not_mem_nil, or_false] at listed
    rcases listed with rfl | rfl | rfl | rfl <;>
      simp only [definitionOf, Option.some.injEq, Prod.mk.injEq] at definition
    · exact .inr definition.2.symm
    · exact absurd definition.1 (by decide)
    · exact absurd definition.1 (by simp)
    · exact .inl definition.2.symm
  -- Neither right side is a local, so nothing defines it.
  have ends {assign : Value} (right : assign = .newExpr ⟨"Service"⟩ ∨ assign = .immediate (.constant "null"))
      (u : Stmt) (next : Value) : ¬ Defines assign u next := by
    rintro ⟨_, _, cur⟩
    rcases right with rfl | rfl <;> cases cur
  cases defined with
  | last inside defines known =>
    rcases only inside defines with rfl | rfl
    · cases known
      rfl
    · cases known
  | next inside defines rest =>
    have right := only inside defines
    cases rest with
    | last _ defines _ => exact absurd defines (ends right _ _)
    | next _ defines _ => exact absurd defines (ends right _ _)

/-- The store into the field is taken for the definition of the service. -/
theorem storing_misled :
    Accepted storing acceptAll (.immediate (.loc service)) (sampleMethod "entry") 3 () ⟨"Helper"⟩ ∧
    ¬ ∃ steps, steps.length ≤ 3 ∧ Defined storing (sampleMethod "entry") steps (.immediate (.loc service)) ⟨"Helper"⟩ := by
  refine ⟨⟨(), by decide +kernel⟩, ?_⟩
  rintro ⟨steps, _, defined⟩
  have same := storing_defined defined
  revert same
  decide

end JgreAnalysis.ValueDefinitions
