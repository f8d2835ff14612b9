import JgreAnalysis.ExitPointVerdict
import JgreAnalysis.KeyedFolds

/-! The analysis of one method under a change of the order of its statements.
The facts about a local come from the statements that define it, so they do not
depend on the order where every local is assigned once, and neither does what a
single statement is judged to be. The loop over the statements does depend on
it where it can stop at a call that is not found. -/
namespace JgreAnalysis.StatementOrder
open SootModel BinderClasses PointToAnalysis LocalFacts ExitPointChecker ExitPointVerdict
open LoopLaws KeyedFolds

/-- The program with another body for a method. -/
def withUnits (p : Program) (mtd : SootMethod) (units : List Stmt) : Program :=
  { p with retrieveActiveBody := fun m => if m = mtd then some ⟨units⟩ else p.retrieveActiveBody m }

variable (p : Program)

/-- Each local is the left side of at most one statement of the body. -/
def SingleAssignment (mtd : SootMethod) : Prop := ∀ l, (p.units mtd).countP (defines l) ≤ 1

/-- The check of the method reports an insertion. -/
def Reports (mtd : SootMethod) : Prop := ∃ vul flag, check p mtd = .ok (some vul, flag)

/-- The statement has a call to be judged whose method is not found. -/
def Unresolvable (u : Stmt) : Prop :=
  ∃ inv, u.invokeExpr? = some inv ∧ inv.isInterface = false ∧ ∃ problem, p.resolve inv.methodRef = .error problem

/-- Two runs have recorded the same. -/
structure SameFacts (facts other : PointTo) : Prop where
  valueDefines : ∀ l, other.valueDefines.lookup l = facts.valueDefines.lookup l
  localValues : other.localValues = facts.localValues
  pointToSet : ∀ l, other.pointToSet.lookup l = facts.pointToSet.lookup l

variable {p}

@[simp] theorem units_withUnits (mtd : SootMethod) (units : List Stmt) :
    (withUnits p mtd units).units mtd = units := by
  simp [Program.units, withUnits]

/-! ## The facts about one local -/

/-- One statement of the loop of `parseMethodBinderParameters`. -/
def recordParameter (p : Program) (valueTypes : AList fun _ : Local => SootClass) (u : Stmt) :
    AList fun _ : Local => SootClass :=
  match u with
  | .identity (.immediate (.loc left)) (.parameterRef _ (.refType sootClass)) =>
    if isBinderClass p sootClass then valueTypes.insert left sootClass else valueTypes
  | _ => valueTypes

theorem parseMethodBinderParameters_eq (mtd : SootMethod) :
    parseMethodBinderParameters p mtd = (p.units mtd).foldl (recordParameter p) ∅ := rfl

/-- What a run knows about a local. -/
def about (l : Local) (facts : PointTo) : Option SootClass × Bool × Option Local :=
  (facts.valueDefines.lookup l, decide (l ∈ facts.localValues), facts.pointToSet.lookup l)

theorem recordParameter_keyed (l : Local) : Keyed (recordParameter p) (AList.lookup l) (defines l) where
  congr := by
    intro valueTypes other u same
    unfold recordParameter
    split
    · rename_i left _ sootClass
      split
      · by_cases here : l = left
        · subst here
          simp
        · simp [AList.lookup_insert_ne here, same]
      · exact same
    · exact same
  apart := by
    intro u valueTypes elsewhere
    unfold recordParameter
    split
    · rename_i left _ sootClass
      have other : l ≠ left := by
        rintro rfl
        simp [defines] at elsewhere
      split
      · exact AList.lookup_insert_ne other
      · rfl
    · rfl

theorem recordStatement_keyed (l : Local) : Keyed recordStatement (about l) (defines l) where
  congr := by
    intro facts other u same
    obtain ⟨defined, held, copied⟩ : facts.valueDefines.lookup l = other.valueDefines.lookup l ∧
        (l ∈ facts.localValues ↔ l ∈ other.localValues) ∧
        facts.pointToSet.lookup l = other.pointToSet.lookup l := by
      simpa [about] using same
    have inserted (left : Local) (sootClass : SootClass) :
        (facts.valueDefines.insert left sootClass).lookup l = (other.valueDefines.insert left sootClass).lookup l := by
      by_cases here : l = left
      · subst here
        simp
      · simp [AList.lookup_insert_ne here, defined]
    have linked (left right : Local) :
        (facts.pointToSet.insert left right).lookup l = (other.pointToSet.insert left right).lookup l := by
      by_cases here : l = left
      · subst here
        simp
      · simp [AList.lookup_insert_ne here, copied]
    unfold recordStatement findValueDefines
    split
    · split
      · split <;> simp [about, inserted, defined, held, copied]
      · simp [about, linked, defined, held]
      · simp [about, inserted, held, copied]
      · split
        · split <;> simp [about, inserted, defined, held, copied]
        · exact same
      · exact same
    · exact same
  apart := by
    intro u facts elsewhere
    have other (left : Local) (rightOp : Value) (spelled : u = .assign (.immediate (.loc left)) rightOp) : l ≠ left := by
      rintro rfl
      subst spelled
      simp [defines] at elsewhere
    unfold recordStatement findValueDefines
    split
    · split
      · split
        · simp [about, AList.lookup_insert_ne (other _ _ rfl)]
        · rfl
      · simp [about, AList.lookup_insert_ne (other _ _ rfl)]
      · simp [about, AList.lookup_insert_ne (other _ _ rfl), other _ _ rfl]
      · split
        · split
          · simp [about, AList.lookup_insert_ne (other _ _ rfl)]
          · rfl
        · rfl
      · rfl
    · rfl

/-- Every order of the statements of a single-assignment body records the same
facts. -/
theorem sameFacts_of_perm (single : SingleAssignment p mtd) (perm : units.Perm (p.units mtd)) :
    SameFacts (run p mtd) (run (withUnits p mtd units) mtd) := by
  have known (l : Local) : about l (run (withUnits p mtd units) mtd) = about l (run p mtd) := by
    have parameters : (parseMethodBinderParameters (withUnits p mtd units) mtd).lookup l =
        (parseMethodBinderParameters p mtd).lookup l := by
      rw [parseMethodBinderParameters_eq, parseMethodBinderParameters_eq, units_withUnits]
      exact fold_perm (recordParameter_keyed l) perm (single l) rfl
    rw [run_eq, run_eq, units_withUnits]
    exact fold_perm (recordStatement_keyed l) perm (single l) (by simp [about, parameters])
  constructor
  · exact fun l => congrArg Prod.fst (known l)
  · ext l
    have held := congrArg (fun facts => facts.2.1) (known l)
    simpa [about] using held
  · exact fun l => congrArg (fun facts => facts.2.2) (known l)

/-! ## The verdict about one statement -/

theorem addsBinder_same (same : SameFacts (run p mtd) (run (withUnits p mtd units) mtd)) (inv : InvokeExpr) :
    AddsBinder (withUnits p mtd units) mtd inv ↔ AddsBinder p mtd inv := by
  have held (l : Local) : isLocalValue (run (withUnits p mtd units) mtd) l = isLocalValue (run p mtd) l := by
    simp [isLocalValue, same.localValues]
  have defined (l : Local) : getLocalDefine (run (withUnits p mtd units) mtd) l = getLocalDefine (run p mtd) l := by
    simp [getLocalDefine_eq, same.valueDefines]
  unfold AddsBinder
  simp only [held, defined]
  exact Iff.rfl

/-- The same facts lead to the same judgement of a statement. -/
theorem detects_same (same : SameFacts (run p mtd) (run (withUnits p mtd units) mtd)) (u : Stmt) :
    Detects (withUnits p mtd units) mtd u ↔ Detects p mtd u := by
  unfold Detects
  simp only [addsBinder_same same]
  exact Iff.rfl

/-- An insertion resolves, so it is not what stops the loop. -/
theorem checkStatement_detects (detects : Detects p mtd u) (flag : Bool) :
    ∃ vul next, checkStatement p mtd (run p mtd) u flag = .ok (some vul, next) := by
  rcases checkStatement_cases mtd (run p mtd) u flag with ⟨found, next, ran, _⟩ | ⟨inv, problem, invoked, _, fails, _⟩
  · obtain ⟨vul, rfl⟩ := Option.isSome_iff_exists.mp ((checkStatement_spec ran).1.mpr detects)
    exact ⟨vul, next, ran⟩
  · obtain ⟨call, same, _, registers | ⟨⟨cur, resolved, _⟩, _⟩⟩ := detects
    · obtain ⟨cur, resolved, _⟩ := registers
      cases invoked.symm.trans same
      rw [resolved] at fails
      cases fails
    · cases invoked.symm.trans same
      rw [resolved] at fails
      cases fails

theorem checkStatement_unresolvable (mtd : SootMethod) (lost : Unresolvable p u) (flag : Bool) :
    ∃ problem, checkStatement p mtd (run p mtd) u flag = .error problem := by
  obtain ⟨inv, invoked, other, problem, fails⟩ := lost
  refine ⟨problem, ?_⟩
  simp only [checkStatement, invoked, bind, StateT.bind, checkContainExitPoint_eq, Except.bind]
  exact detectAddToList_error _ other fails

/-! ## The loop over the statements -/

/-- A body that can be judged to its end is reported exactly when it has an
insertion. -/
theorem reports_iff (resolvable : ∀ u ∈ p.units mtd, ¬ Unresolvable p u) :
    Reports p mtd ↔ ∃ u ∈ p.units mtd, Detects p mtd u := by
  have total : ∃ reply, check p mtd = .ok reply := by
    refine loop_total _ (fun u member flag => ?_) false
    rcases checkStatement_cases mtd (run p mtd) u flag with ⟨found, next, ran, _⟩ | ⟨inv, problem, invoked, other, fails, _⟩
    · exact ⟨_, ran⟩
    · exact absurd ⟨inv, invoked, other, problem, fails⟩ (resolvable u member)
  obtain ⟨⟨found, flag⟩, ran⟩ := total
  rw [← check_found_iff ran, Option.isSome_iff_exists]
  simp [Reports, ran]

theorem detects_of_reports (reports : Reports p mtd) : ∃ u ∈ p.units mtd, Detects p mtd u := by
  obtain ⟨vul, flag, ran⟩ := reports
  exact (check_found_iff ran).mp rfl

/-- A first statement with an insertion is reported, whatever follows. -/
theorem reports_first (spelled : p.units mtd = u :: after) (detects : Detects p mtd u) : Reports p mtd := by
  obtain ⟨vul, next, ran⟩ := checkStatement_detects detects false
  refine ⟨vul, next, ?_⟩
  have looped : (u :: after).findSomeM? (checkStatement p mtd (run p mtd)) false = .ok (some vul, next) := by
    rw [loop_cons, ran]
  rwa [← spelled] at looped

/-- A first statement whose call is not found stops the loop. -/
theorem not_reports_first (spelled : p.units mtd = u :: after) (lost : Unresolvable p u) : ¬ Reports p mtd := by
  rintro ⟨vul, flag, ran⟩
  obtain ⟨problem, fails⟩ := checkStatement_unresolvable mtd lost false
  have looped : (u :: after).findSomeM? (checkStatement p mtd (run p mtd)) false = .error problem := by
    rw [loop_cons, fails]
  rw [← spelled] at looped
  cases ran.symm.trans looped

/-- The order of the statements of a single-assignment body is no matter for the
facts, and for the verdict exactly when the body does not have both an insertion
and a call that is not found. -/
theorem order_insensitive_iff (single : SingleAssignment p mtd) :
    (∀ units, units.Perm (p.units mtd) →
      SameFacts (run p mtd) (run (withUnits p mtd units) mtd) ∧
      (Reports (withUnits p mtd units) mtd ↔ Reports p mtd)) ↔
    ¬ ((∃ u ∈ p.units mtd, Detects p mtd u) ∧ ∃ u ∈ p.units mtd, Unresolvable p u) := by
  have inFront {u : Stmt} (member : u ∈ p.units mtd) : ∃ after, (u :: after).Perm (p.units mtd) := by
    obtain ⟨before, after, split⟩ := List.append_of_mem member
    exact ⟨before ++ after, split ▸ List.perm_middle.symm⟩
  constructor
  · rintro insensitive ⟨⟨u, inside, detects⟩, ⟨v, beside, lost⟩⟩
    obtain ⟨early, perm⟩ := inFront inside
    obtain ⟨same, reported⟩ := insensitive _ perm
    obtain ⟨late, moved⟩ := inFront beside
    obtain ⟨_, stopped⟩ := insensitive _ moved
    have reports := reported.mp (reports_first (units_withUnits mtd _) ((detects_same same u).mpr detects))
    exact not_reports_first (units_withUnits mtd _) lost (stopped.mpr reports)
  · intro apart units perm
    have same := sameFacts_of_perm single perm
    refine ⟨same, ?_⟩
    have moved : (∃ u ∈ (withUnits p mtd units).units mtd, Detects (withUnits p mtd units) mtd u) ↔
        ∃ u ∈ p.units mtd, Detects p mtd u := by
      simp only [units_withUnits, detects_same same, perm.mem_iff]
    by_cases inserts : ∃ u ∈ p.units mtd, Detects p mtd u
    · have found (u : Stmt) (member : u ∈ p.units mtd) : ¬ Unresolvable p u := fun lost => apart ⟨inserts, u, member, lost⟩
      rw [reports_iff found, ← moved]
      apply reports_iff
      intro u member
      rw [units_withUnits, perm.mem_iff] at member
      exact found u member
    · exact iff_of_false (fun reports => inserts (moved.mp (detects_of_reports reports)))
        fun reports => inserts (detects_of_reports reports)

/-- A body that inserts a new callback into a list, and a program in which a
second call of it is static while the class has the method for its instances. -/
def inserting : List Stmt :=
  [.assign (.immediate (.loc ⟨"callback", 0⟩)) (.newExpr ⟨"Callback"⟩),
    invocation (.virtual ⟨"list", 1⟩) "java.util.ArrayList" "add" [.loc ⟨"callback", 0⟩]]

def staticAttach : Stmt := callTo "attach"

def losing : Program :=
  { sampleProgram fun _ => inserting ++ [staticAttach] with
    resolve := fun ref =>
      if ref.name = "attach" then .error ⟨ref⟩
      else .ok { declaringClass := ref.declaringClass, name := ref.name, subSignature := ref.subSignature } }

theorem losing_singleAssignment : SingleAssignment losing (sampleMethod "entry") := by
  intro l
  by_cases callback : (⟨"callback", 0⟩ : Local) = l <;>
    simp [losing, sampleProgram, Program.units, inserting, staticAttach, callTo, invocation, defines, callback]

theorem order_insensitive_iff_losing : SingleAssignment losing (sampleMethod "entry") ∧
    ((∀ units, units.Perm (losing.units (sampleMethod "entry")) →
      SameFacts (run losing (sampleMethod "entry")) (run (withUnits losing (sampleMethod "entry") units) (sampleMethod "entry")) ∧
      (Reports (withUnits losing (sampleMethod "entry") units) (sampleMethod "entry") ↔ Reports losing (sampleMethod "entry"))) ↔
    ¬ ((∃ u ∈ losing.units (sampleMethod "entry"), Detects losing (sampleMethod "entry") u) ∧
      ∃ u ∈ losing.units (sampleMethod "entry"), Unresolvable losing u)) :=
  ⟨losing_singleAssignment, order_insensitive_iff losing_singleAssignment⟩

/-- With the static call in front the same body has no verdict. -/
theorem losing_order_matters : SingleAssignment losing (sampleMethod "entry") ∧
    (staticAttach :: inserting).Perm (losing.units (sampleMethod "entry")) ∧
    Reports losing (sampleMethod "entry") ∧
    ¬ Reports (withUnits losing (sampleMethod "entry") (staticAttach :: inserting)) (sampleMethod "entry") := by
  refine ⟨losing_singleAssignment, (List.perm_append_singleton staticAttach inserting).symm, ?_, ?_⟩
  · exact ⟨{ checked := sampleMethod "entry", binderCls := ⟨"Callback"⟩, listTag := "java.util.ArrayList" }, false,
      by decide +kernel⟩
  · have stopped : check (withUnits losing (sampleMethod "entry") (staticAttach :: inserting)) (sampleMethod "entry") =
        .error ⟨⟨⟨"Service"⟩, "attach", [], .other "void", "attach"⟩⟩ := by
      decide +kernel
    rintro ⟨vul, flag, ran⟩
    rw [stopped] at ran
    cases ran

end JgreAnalysis.StatementOrder
