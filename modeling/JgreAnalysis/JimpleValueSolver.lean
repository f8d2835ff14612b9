import JgreAnalysis.FrameworkScene
import JgreAnalysis.LoopLaws

/-! The search for the class behind a value. It follows the definitions of a
value inside one body for a bounded number of steps and offers every class it
comes to, until one is accepted. -/
namespace JgreAnalysis.JimpleValueSolver
open SootModel FrameworkScene LoopLaws

def kAsBinder : String := "asBinder"

/-- Solving runs over the variables that the callback captures. -/
abbrev Solving (σ : Type) := StateT σ (Except ResolutionFailed)

/-- What the search does behind a statement. The value that is put on the work
list comes with the jump to the next round. -/
inductive JumpStatus where
  | next (assign : Value)
  | found
  | ignore
  deriving DecidableEq, Repr

/-- `SootTool.getExprValue`: the value that a value is about. -/
def getExprValue : Value → Value
  | .cast _ op => .immediate op
  | .instanceFieldRef base _ => .immediate (.loc base)
  | u => u

/-- Equality of a left side with the value searched for. Locals are objects that
many statements share; a left side that is no local is an object of its own. -/
def sameLocal (leftVal curVal : Value) : Bool :=
  match leftVal, curVal with
  | .immediate (.loc left), .immediate (.loc cur) => left == cur
  | _, _ => false

def isNull (value : Value) : Bool := value == .immediate (.constant "null")

def definitionOf : Stmt → Option (Value × Value)
  | .assign leftOp rightOp | .identity leftOp rightOp => some (leftOp, rightOp)
  | _ => none

variable (f : Framework) (checkAndGetCls : SootClass → StateM σ Bool)

/-- The class of the right side of a definition: the current class where a
binder is asked for, else the class of its type. -/
def definedClass (curCls : SootClass) (assign : Value) : Except ResolutionFailed (Option SootClass) :=
  match assign with
  | .invoke invoke => do
    let mtd ← f.resolve invoke.methodRef
    if mtd.name = kAsBinder then pure (some curCls) else pure (getClsFromValue f assign)
  | _ => pure (getClsFromValue f assign)

def resolveValueFromDefinitionStmt (curCls : SootClass) (curVal leftOp assign : Value) : Solving σ JumpStatus := do
  if sameLocal (getExprValue leftOp) curVal ∧ isNull assign = false then
    match ← definedClass f curCls assign with
    | none => pure .ignore
    | some cls =>
      let find ← fun state => pure (checkAndGetCls cls state)
      if find then pure .found else pure (.next assign)
  else pure .ignore

/-- One statement of the loop over the body. Only a jump ends the loop. -/
def visitUnit (curCls : SootClass) (curVal : Value) (u : Stmt) : Solving σ (Option JumpStatus) :=
  match definitionOf u with
  | some (leftOp, assign) => do
    match ← resolveValueFromDefinitionStmt f checkAndGetCls curCls curVal leftOp assign with
    | .ignore => pure none
    | status => pure (some status)
  | none => pure none

/-- The loop over the work list, with the levels that are left. -/
def searchValues (curCls : SootClass) (units : List Stmt) : ℕ → List Value → Solving σ Unit
  | _, [] => pure ()
  | 0, _ :: _ => pure ()
  | lev + 1, v :: workList => do
    match ← units.findSomeM? (visitUnit f checkAndGetCls curCls (getExprValue v)) with
    | some .found => pure ()
    | some (.next assign) => searchValues curCls units lev (workList ++ [assign])
    | _ => searchValues curCls units lev workList

def startToSearchValue (v : Value) (mtd : SootMethod) (deep : ℕ := 3) : Solving σ Unit :=
  match f.retrieveActiveBody mtd with
  | none => pure ()
  | some body => searchValues f checkAndGetCls mtd.declaringClass body.units deep [v]

/-! ## What the callback keeps -/

variable {f checkAndGetCls}

/-- One statement leaves the captured variables alone, or lets the callback
change them once. -/
theorem resolve_state (ran : resolveValueFromDefinitionStmt f checkAndGetCls curCls curVal leftOp assign state =
    .ok (status, final)) : final = state ∨ ∃ cls, final = (checkAndGetCls cls state).2 := by
  unfold resolveValueFromDefinitionStmt at ran
  split at ran
  · obtain ⟨cls, middle, defined, rest⟩ := state_bind_ok.mp ran
    obtain ⟨_, rfl⟩ := lift_ok.mp defined
    cases cls with
    | none =>
      cases rest
      exact .inl rfl
    | some cls =>
      obtain ⟨find, after, called, jump⟩ := state_bind_ok.mp rest
      have same : after = (checkAndGetCls cls middle).2 := (congrArg Prod.snd (Except.ok.inj called)).symm
      split at jump <;> cases jump <;> exact .inr ⟨cls, same⟩
  · cases ran
    exact .inl rfl

theorem visitUnit_state (ran : visitUnit f checkAndGetCls curCls curVal u state = .ok (status, final)) :
    final = state ∨ ∃ cls, final = (checkAndGetCls cls state).2 := by
  unfold visitUnit at ran
  cases definition : definitionOf u with
  | none =>
    rw [definition] at ran
    cases ran
    exact .inl rfl
  | some sides =>
    rw [definition] at ran
    obtain ⟨jump, middle, resolved, rest⟩ := state_bind_ok.mp ran
    split at rest <;> cases rest <;> exact resolve_state resolved

/-- What the callback keeps of its variables holds after a search. -/
theorem search_keeps (holds : σ → Prop) (keeps : ∀ cls state, holds state → holds (checkAndGetCls cls state).2)
    (start : holds state) (ran : startToSearchValue f checkAndGetCls v mtd deep state = .ok (done, final)) :
    holds final := by
  have searched (curCls : SootClass) (units : List Stmt) (lev : ℕ) (workList : List Value) (state : σ)
      (start : holds state) (ran : searchValues f checkAndGetCls curCls units lev workList state = .ok (done, final)) :
      holds final := by
    induction lev generalizing workList state with
    | zero =>
      cases workList <;> cases ran <;> exact start
    | succ lev ih =>
      cases workList with
      | nil =>
        cases ran
        exact start
      | cons v workList =>
        obtain ⟨status, middle, looped, rest⟩ := state_bind_ok.mp ran
        have kept : holds middle := by
          refine loop_keeps holds units ?_ start looped
          intro u _ state answer next old visited
          rcases visitUnit_state visited with rfl | ⟨cls, rfl⟩
          · exact old
          · exact keeps cls state old
        split at rest
        · cases rest
          exact kept
        · exact ih _ middle kept rest
        · exact ih _ middle kept rest
  unfold startToSearchValue at ran
  cases body : f.retrieveActiveBody mtd with
  | none =>
    rw [body] at ran
    cases ran
    exact start
  | some body =>
    simp only [body] at ran
    exact searched _ _ _ _ state start ran

end JgreAnalysis.JimpleValueSolver
