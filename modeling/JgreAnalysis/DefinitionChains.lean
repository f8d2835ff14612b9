import JgreAnalysis.LoopRuns
import JgreAnalysis.ValueDefinitions

/-! The loop of the value solver, step by step, beside the chain of definitions
that it stands for. The work list never holds more than the value to search for
next, so the loop follows one chain, and it follows it to its end unless it asks
an invoke for a method that does not resolve. -/
namespace JgreAnalysis.DefinitionChains
open SootModel FrameworkScene LoopLaws LoopRuns StateTransition JimpleValueSolver ValueDefinitions

/-! ## The loop -/

/-- The loop stands at the test of its work list or at a statement of the loop
over the body, or it has been left. -/
inductive Control where
  | test
  | visit (curVal : Value) (units : List Stmt)
  | returned
  | thrown (problem : ResolutionFailed)

/-- The variables of a search, those of the callback, and the classes that were
passed to it so far. -/
structure Search (σ : Type) where
  control : Control
  workList : List Value
  lev : ℤ
  passed : List SootClass
  vars : σ

variable (f : Framework) (checkAndGetCls : SootClass → StateM σ Bool) (mtd : SootMethod)

/-- The callback, with every class that it is given written down. -/
def logging (cls : SootClass) : StateM (List SootClass × σ) Bool :=
  fun (passed, vars) =>
    let (find, next) := checkAndGetCls cls vars
    (find, passed ++ [cls], next)

def step (s : Search σ) : Option (Search σ) :=
  match s.control with
  | .test =>
    match s.workList with
    | [] => some { s with control := .returned }
    | v :: workList =>
      if s.lev ≤ 0 then some { s with control := .returned }
      else some { s with control := .visit (getExprValue v) (f.units mtd), workList, lev := s.lev - 1 }
  | .visit _ [] => some { s with control := .test }
  | .visit curVal (u :: units) =>
    match visitUnit f (logging checkAndGetCls) mtd.declaringClass curVal u (s.passed, s.vars) with
    | .error problem => some { s with control := .thrown problem }
    | .ok (some .found, passed, vars) => some { s with control := .returned, passed, vars }
    | .ok (some (.next assign), passed, vars) =>
      some { s with control := .test, workList := s.workList ++ [assign], passed, vars }
    | .ok (_, passed, vars) => some { s with control := .visit curVal units, passed, vars }
  | .returned | .thrown _ => none

/-- `startToSearchValue` in front of its loop. -/
def start (v : Value) (deep : ℤ) (vars : σ) : Search σ :=
  match f.retrieveActiveBody mtd with
  | none => ⟨.returned, [], deep, [], vars⟩
  | some _ => ⟨.test, [v], deep, [], vars⟩

/-! ## The chain -/

/-- The class of a right side: the current class for the result of `asBinder`,
else the class of its type. -/
def classOf (curCls : SootClass) (assign : Value) : Option SootClass :=
  match assign with
  | .invoke invoke =>
    match f.resolve invoke.methodRef with
    | .ok mtd => if mtd.name = kAsBinder then some curCls else getClsFromValue f assign
    | .error _ => getClsFromValue f assign
  | _ => getClsFromValue f assign

/-- A statement that defines the value, with a class for its right side. -/
def definition (v : Value) (u : Stmt) : Option Offer :=
  match definitionOf u with
  | some (leftOp, assign) =>
    if sameLocal (getExprValue leftOp) (getExprValue v) ∧ isNull assign = false then
      (classOf f mtd.declaringClass assign).map (Offer.mk u assign)
    else none
  | none => none

def firstDefinition (v : Value) : Option Offer := (f.units mtd).findSome? (definition f mtd v)

/-- So many definitions in a row, each with the value that it defines. The value
behind a definition is its right side, and none follows a class that is
accepted. -/
def definitionChain : ℕ → Value → σ → List (Value × Offer)
  | 0, _, _ => []
  | deep + 1, v, vars =>
    match firstDefinition f mtd v with
    | none => []
    | some u =>
      (v, u) :: if (checkAndGetCls u.cls vars).1 then []
        else definitionChain deep u.assign (checkAndGetCls u.cls vars).2

/-- The classes of the chain. -/
def chainClasses (deep : ℕ) (v : Value) (vars : σ) : List SootClass :=
  (definitionChain f checkAndGetCls mtd deep v vars).map fun link => link.2.cls

/-- The statement gives the value the result of an invoke whose method does not
resolve. -/
def Unresolved (v : Value) (u : Stmt) : Prop :=
  ∃ leftOp invoke problem, definitionOf u = some (leftOp, .invoke invoke) ∧
    sameLocal (getExprValue leftOp) (getExprValue v) = true ∧ f.resolve invoke.methodRef = .error problem

/-- Up to the first definition of the value nothing is unresolved. -/
def Clear (v : Value) : Prop := ClearTo (definition f mtd v) (Unresolved f v) (f.units mtd)

variable {f checkAndGetCls mtd}

/-! ## The work list -/

/-- In the loop over the body the work list is empty, elsewhere it holds one value
at most. -/
def Narrow (s : Search σ) : Prop :=
  match s.control with
  | .visit _ _ => s.workList = []
  | _ => s.workList.length ≤ 1

theorem step_narrow (narrow : Narrow s) (stepped : step f checkAndGetCls mtd s = some t) : Narrow t := by
  obtain ⟨control, workList, lev, passed, vars⟩ := s
  cases control with
  | test =>
    cases workList with
    | nil =>
      cases stepped
      exact Nat.zero_le 1
    | cons v workList =>
      simp only [step] at stepped
      have single : workList = [] := by simpa [Narrow] using narrow
      split at stepped <;> cases stepped
      · exact narrow
      · exact single
  | visit curVal units =>
    have empty : workList = [] := narrow
    subst empty
    cases units with
    | nil =>
      cases stepped
      exact Nat.zero_le 1
    | cons u units =>
      simp only [step] at stepped
      split at stepped <;> cases stepped
      · exact Nat.zero_le 1
      · exact Nat.zero_le 1
      · exact le_rfl
      · rfl
  | returned => cases stepped
  | thrown problem => cases stepped

theorem workList_le_one (reached : Reaches (step f checkAndGetCls mtd) (start f mtd v deep vars) s) :
    s.workList.length ≤ 1 := by
  have first : Narrow (start f mtd v deep vars) := by
    unfold start
    split
    · exact Nat.zero_le 1
    · exact le_rfl
  have narrow : Narrow s := reaches_keeps Narrow (fun _ _ old stepped => step_narrow old stepped) first reached
  unfold Narrow at narrow
  split at narrow
  · rw [narrow]
    exact Nat.zero_le 1
  · exact narrow

/-! ## One round -/

theorem offer_law (f : Framework) (mtd : SootMethod) (v : Value) :
    FailsOrAnswers (offer f mtd.declaringClass (getExprValue v)) (definition f mtd v) (Unresolved f v) := by
  constructor
  · rintro u ⟨leftOp, invoke, problem, defined, same, failed⟩
    refine ⟨problem, ?_⟩
    simp [offer, defined, same, isNull, definedClass, failed, bind, Except.bind, Except.map]
  · intro u resolved
    unfold offer definition
    cases sides : definitionOf u with
    | none => rfl
    | some pair =>
      obtain ⟨leftOp, assign⟩ := pair
      simp only
      split
      · rename_i here
        have known : definedClass f mtd.declaringClass assign = .ok (classOf f mtd.declaringClass assign) := by
          unfold definedClass classOf
          cases assign with
          | invoke invoke =>
            cases found : f.resolve invoke.methodRef with
            | error problem => exact absurd ⟨leftOp, invoke, problem, sides, here.1, found⟩ resolved
            | ok callee =>
              simp only [bind, Except.bind, found]
              split <;> rfl
          | _ => rfl
        rw [known]
        rfl
      · rfl

/-- Where the loop over the body leaves a search. -/
def visited (checkAndGetCls : SootClass → StateM σ Bool) (s : Search σ) :
    Except ResolutionFailed (Option Offer) → Search σ
  | .error problem => { s with control := .thrown problem }
  | .ok none => { s with control := .test }
  | .ok (some found) =>
    if (checkAndGetCls found.cls s.vars).1 then
      { s with control := .returned, passed := s.passed ++ [found.cls], vars := (checkAndGetCls found.cls s.vars).2 }
    else
      { s with
        control := .test
        workList := s.workList ++ [found.assign]
        passed := s.passed ++ [found.cls]
        vars := (checkAndGetCls found.cls s.vars).2 }

theorem logging_apply (checkAndGetCls : SootClass → StateM σ Bool) (cls : SootClass) (passed : List SootClass) (vars : σ) :
    logging checkAndGetCls cls (passed, vars) =
      ((checkAndGetCls cls vars).1, passed ++ [cls], (checkAndGetCls cls vars).2) := rfl

theorem visit_reaches (curVal : Value) (units : List Stmt) (s : Search σ) :
    Reaches (step f checkAndGetCls mtd) { s with control := .visit curVal units }
      (visited checkAndGetCls s (units.findSomeM? (offer f mtd.declaringClass curVal))) := by
  induction units with
  | nil => exact .single rfl
  | cons u units ih =>
    have called := visitUnit_eq (f := f) (logging checkAndGetCls) mtd.declaringClass curVal u (s.passed, s.vars)
    rw [plain_cons]
    cases outcome : offer f mtd.declaringClass curVal u with
    | error problem =>
      rw [outcome] at called
      exact .single (by simp [step, called, visited])
    | ok found =>
      cases found with
      | none =>
        rw [outcome] at called
        exact .head (by simp [step, called]) ih
      | some found =>
        simp only [outcome] at called
        by_cases find : (checkAndGetCls found.cls s.vars).1 = true
        · have accepts : (logging checkAndGetCls found.cls (s.passed, s.vars)).1 = true := find
          rw [if_pos accepts, logging_apply] at called
          exact .single (by simp [step, called, visited, find])
        · have rejects : ¬ (logging checkAndGetCls found.cls (s.passed, s.vars)).1 = true := find
          rw [if_neg rejects, logging_apply] at called
          exact .single (by simp [step, called, visited, find])

variable (f checkAndGetCls mtd)

/-- A round takes the value from the work list and goes through the body. -/
theorem round_reaches (lev : ℕ) (v : Value) (passed : List SootClass) (vars : σ) :
    Reaches (step f checkAndGetCls mtd) ⟨.test, [v], lev + 1, passed, vars⟩
      (visited checkAndGetCls ⟨.test, [], lev, passed, vars⟩ (firstOffer f mtd v)) := by
  have taken : step f checkAndGetCls mtd ⟨.test, [v], lev + 1, passed, vars⟩ =
      some ⟨.visit (getExprValue v) (f.units mtd), [], lev, passed, vars⟩ := by
    have more : ¬ (lev : ℤ) + 1 ≤ 0 := by omega
    simp [step, more]
  exact .head taken (visit_reaches (getExprValue v) (f.units mtd) ⟨.test, [], lev, passed, vars⟩)

/-- The loop over the body takes the first definition, unless it fails on the
way. -/
theorem firstOffer_cases (v : Value) :
    (firstDefinition f mtd v = none ∧ (firstOffer f mtd v = .ok none ∨ ∃ problem, firstOffer f mtd v = .error problem)) ∨
    ∃ u, firstDefinition f mtd v = some u ∧ ((Clear f mtd v ∧ firstOffer f mtd v = .ok (some u)) ∨
      (¬ Clear f mtd v ∧ ∃ problem, firstOffer f mtd v = .error problem)) := by
  have law := offer_law f mtd v
  cases first : firstDefinition f mtd v with
  | none => exact .inl ⟨rfl, plain_silent law first⟩
  | some u =>
    refine .inr ⟨u, rfl, ?_⟩
    by_cases clear : Clear f mtd v
    · exact .inl ⟨clear, plain_clear law first clear⟩
    · exact .inr ⟨clear, plain_unclear law clear⟩

/-! ## Whole searches -/

/-- The loop is left in the way that the search ends. -/
def LeftAs (final : Search σ) : Except ResolutionFailed (Unit × σ) → Prop
  | .ok (_, vars) => final.control = .returned ∧ final.vars = vars
  | .error problem => final.control = .thrown problem

theorem search_ends (lev : ℕ) (v : Value) (passed : List SootClass) (vars : σ) :
    ∃ final ∈ eval (step f checkAndGetCls mtd) ⟨.test, [v], lev, passed, vars⟩,
      LeftAs final (searchValue (f := f) checkAndGetCls mtd lev v vars) ∧
      ∃ more, final.passed = passed ++ more ∧ (more = chainClasses f checkAndGetCls mtd lev v vars ↔
        ∀ link ∈ definitionChain f checkAndGetCls mtd lev v vars, Clear f mtd link.1) := by
  induction lev generalizing v passed vars with
  | zero =>
    refine ⟨⟨.returned, [v], 0, passed, vars⟩, mem_eval.mpr ⟨.single rfl, rfl⟩, ⟨rfl, rfl⟩, [], by simp, ?_⟩
    simp [chainClasses, definitionChain]
  | succ lev ih =>
    have round := round_reaches f checkAndGetCls mtd lev v passed vars
    rw [search_round, chainClasses, definitionChain]
    rcases firstOffer_cases f mtd v with ⟨silent, found | ⟨problem, failed⟩⟩ |
      ⟨u, first, ⟨clear, found⟩ | ⟨unclear, problem, failed⟩⟩
    · rw [found] at round ⊢
      have stops : step f checkAndGetCls mtd ⟨.test, [], lev, passed, vars⟩ = some ⟨.returned, [], lev, passed, vars⟩ := rfl
      refine ⟨_, mem_eval.mpr ⟨round.tail stops, rfl⟩, ⟨rfl, rfl⟩, [], by simp, ?_⟩
      simp [silent]
    · rw [failed] at round ⊢
      refine ⟨_, mem_eval.mpr ⟨round, rfl⟩, rfl, [], by simp [visited], ?_⟩
      simp [silent]
    · rw [found] at round ⊢
      by_cases find : (checkAndGetCls u.cls vars).1 = true
      · simp only [visited, if_pos find] at round
        refine ⟨_, mem_eval.mpr ⟨round, rfl⟩, ?_, [u.cls], rfl, ?_⟩
        · simp [LeftAs, find]
        · simp [first, find, clear]
      · simp only [visited, if_neg find] at round
        obtain ⟨final, ended, left, more, split, same⟩ :=
          ih u.assign (passed ++ [u.cls]) (checkAndGetCls u.cls vars).2
        refine ⟨final, reaches_eval round ▸ ended, ?_, u.cls :: more, by simp [split], ?_⟩
        · simpa [find] using left
        · simpa [first, find, clear, chainClasses] using same
    · rw [failed] at round ⊢
      refine ⟨_, mem_eval.mpr ⟨round, rfl⟩, rfl, [], by simp [visited], ?_⟩
      simp [first, unclear]

/-- The loop ends for every bound as `startToSearchValue` does, and it has passed
the classes of the chain exactly when nothing on the chain is unresolved. -/
theorem start_ends (v : Value) (deep : ℤ) (vars : σ) :
    ∃ final ∈ eval (step f checkAndGetCls mtd) (start f mtd v deep vars),
      LeftAs final (startToSearchValue f checkAndGetCls v mtd deep.toNat vars) ∧
      (final.passed = chainClasses f checkAndGetCls mtd deep.toNat v vars ↔
        ∀ link ∈ definitionChain f checkAndGetCls mtd deep.toNat v vars, Clear f mtd link.1) := by
  cases body : f.retrieveActiveBody mtd with
  | none =>
    have empty : f.units mtd = [] := by simp [Program.units, body]
    have silent : firstDefinition f mtd v = none := by simp [firstDefinition, empty]
    have nothing : definitionChain f checkAndGetCls mtd deep.toNat v vars = [] := by
      cases deep.toNat <;> simp [definitionChain, silent]
    refine ⟨⟨.returned, [], deep, [], vars⟩, ?_, ?_, ?_⟩
    · simp only [start, body]
      exact mem_eval.mpr ⟨.refl, rfl⟩
    · simp only [startToSearchValue, body]
      exact ⟨rfl, rfl⟩
    · simp [chainClasses, nothing]
  | some units =>
    rw [startToSearchValue_eq]
    simp only [start, body]
    by_cases more : 0 ≤ deep
    · obtain ⟨lev, rfl⟩ := Int.eq_ofNat_of_zero_le more
      obtain ⟨final, ended, left, passed, split, same⟩ := search_ends f checkAndGetCls mtd lev v [] vars
      exact ⟨final, ended, left, by rwa [split]⟩
    · have none_left : deep.toNat = 0 := by omega
      have stops : step f checkAndGetCls mtd ⟨.test, [v], deep, [], vars⟩ = some ⟨.returned, [v], deep, [], vars⟩ := by
        have low : deep ≤ 0 := by omega
        simp [step, low]
      rw [none_left]
      exact ⟨_, mem_eval.mpr ⟨.single stops, rfl⟩, ⟨rfl, rfl⟩, by simp [chainClasses, definitionChain]⟩

/-- Where every method reference resolves, nothing is in the way of the chain. -/
theorem passed_of_resolving (resolving : ∀ methodRef, ∃ callee, f.resolve methodRef = .ok callee) (v : Value) (deep : ℤ)
    (vars : σ) : ∃ final ∈ eval (step f checkAndGetCls mtd) (start f mtd v deep vars),
      final.passed = chainClasses f checkAndGetCls mtd deep.toNat v vars := by
  obtain ⟨final, ended, _, same⟩ := start_ends f checkAndGetCls mtd v deep vars
  refine ⟨final, ended, same.mpr ?_⟩
  rintro link _ before u after _ _ _ reached _ ⟨_, invoke, problem, _, _, failed⟩
  obtain ⟨callee, resolved⟩ := resolving invoke.methodRef
  rw [resolved] at failed
  cases failed

/-- The search passes exactly the classes of the chain, with never more than one
value on its work list, when nothing on the chain is unresolved, and only
then. -/
theorem chain_followed_iff (v : Value) (deep : ℤ) (vars : σ) :
    ((∀ s, Reaches (step f checkAndGetCls mtd) (start f mtd v deep vars) s → s.workList.length ≤ 1) ∧
      ∃ final ∈ eval (step f checkAndGetCls mtd) (start f mtd v deep vars),
        LeftAs final (startToSearchValue f checkAndGetCls v mtd deep.toNat vars) ∧
        final.passed = chainClasses f checkAndGetCls mtd deep.toNat v vars) ↔
    ∀ link ∈ definitionChain f checkAndGetCls mtd deep.toNat v vars, Clear f mtd link.1 := by
  obtain ⟨final, ended, left, same⟩ := start_ends f checkAndGetCls mtd v deep vars
  constructor
  · rintro ⟨_, other, otherEnded, _, passed⟩
    cases Part.mem_unique ended otherEnded
    exact same.mp passed
  · intro clear
    exact ⟨fun _ reached => workList_le_one reached, final, ended, left, same.mpr clear⟩

/-- A body that asks for a service by a static call of an instance method, which does
not resolve, before it makes one itself. -/
def lookingUp : Framework :=
  { sampleFramework (sampleProgram fun _ =>
      [.assign (.immediate (.loc service))
          (.invoke ⟨.static, ⟨⟨"Services"⟩, "find", [], .refType ⟨"Service"⟩, "find"⟩, []⟩),
        .assign (.immediate (.loc service)) (.newExpr ⟨"Service"⟩)]) with
    resolve := fun methodRef => .error ⟨methodRef⟩ }

/-- The search ends before it passes a class. -/
theorem lookingUp_not_followed :
    chainClasses lookingUp acceptAll (sampleMethod "entry") 3 (.immediate (.loc service)) () = [⟨"Service"⟩] ∧
    ¬ ∃ final ∈ eval (step lookingUp acceptAll (sampleMethod "entry"))
        (start lookingUp (sampleMethod "entry") (.immediate (.loc service)) 3 ()),
      final.passed = chainClasses lookingUp acceptAll (sampleMethod "entry") 3 (.immediate (.loc service)) () := by
  have chain : chainClasses lookingUp acceptAll (sampleMethod "entry") 3 (.immediate (.loc service)) () = [⟨"Service"⟩] := by
    decide +kernel
  refine ⟨chain, ?_⟩
  rintro ⟨final, ended, passed⟩
  have stopped : (⟨.thrown ⟨⟨⟨"Services"⟩, "find", [], .refType ⟨"Service"⟩, "find"⟩⟩, [], 2, [], ()⟩ : Search Unit) ∈
      eval (step lookingUp acceptAll (sampleMethod "entry"))
        (start lookingUp (sampleMethod "entry") (.immediate (.loc service)) 3 ()) :=
    mem_eval.mpr ⟨.head rfl (.single rfl), rfl⟩
  cases Part.mem_unique ended stopped
  rw [chain] at passed
  cases passed

end JgreAnalysis.DefinitionChains
