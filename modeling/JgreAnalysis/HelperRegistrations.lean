import JgreAnalysis.LoopLaws
import JgreAnalysis.ServiceHelperExtractor

/-! What the extraction of helpers makes of the registry's initializer. Every
registration leaves one entry, for the class of the first value that its block
creates, with the tag of the first binder that the block asks for. -/
namespace JgreAnalysis.HelperRegistrations
open SootModel FrameworkScene ServiceApi ServiceHelperExtractor LoopLaws

variable (f : Framework)

def Resolves (expr : InvokeExpr) : Prop := ∃ called, f.resolve expr.methodRef = .ok called

/-- The call registers a helper, as far as its method and its arguments tell. -/
def registers (expr : InvokeExpr) : Bool :=
  match f.resolve expr.methodRef, expr.args with
  | .ok called, _ :: tag :: _ :: _ => called.name == kServiceHelperRegisterFunc && isClassConstant f tag
  | _, _ => false

/-- The call asks the service manager for a binder. -/
def asksForBinder (expr : InvokeExpr) : Bool :=
  match f.resolve expr.methodRef with
  | .ok called => f.signature called == kGetServiceMtd || f.signature called == kGetServiceMtd2
  | .error _ => false

/-- The method returns the operand, and only nulls before it. -/
def FirstReturned (mtd : SootMethod) (op : Immediate) : Prop :=
  ∃ body before after, f.retrieveActiveBody mtd = some body ∧ body.units = before ++ .ret op :: after ∧
    typeOf f (.immediate op) ≠ nullType ∧ ∀ other, .ret other ∈ before → typeOf f (.immediate other) = nullType

/-- What the first call for a binder names, when all calls up to it resolve. -/
inductive BinderTag (mtd : SootMethod) : Option String → Prop where
  | asked (split : f.invokes mtd = before ++ expr :: after)
      (earlier : ∀ other ∈ before, Resolves f other ∧ asksForBinder f other = false)
      (asks : asksForBinder f expr = true) (given : expr.args = tag :: rest) : BinderTag mtd (some (immediateText tag))
  | silent (all : ∀ expr ∈ f.invokes mtd, Resolves f expr ∧ asksForBinder f expr = false) : BinderTag mtd none

/-- The entry that the block of a registration leaves. -/
def Creates (blockCls helper : SootClass) (binderTag : Option String) : Prop :=
  ∃ createMtd op, (f.methods blockCls).find? (createsService f) = some createMtd ∧ FirstReturned f createMtd op ∧
    getClsFromValue f (.immediate op) = some helper ∧ BinderTag f createMtd binderTag

/-- The registration leaves the entry. -/
def Registered (expr : InvokeExpr) (api : ServiceApiClass) : Prop :=
  ∃ managerName tag block rest blockCls helper binderTag, expr.args = managerName :: tag :: block :: rest ∧
    getClsFromValue f (.immediate block) = some blockCls ∧ Creates f blockCls helper binderTag ∧
    api = { helperClass := some helper, managerName := some (immediateText managerName), serviceName := binderTag }

variable {f}

theorem getMethod_ok_iff (expr : InvokeExpr) (called : SootMethod) :
    getMethod f expr = .ok called ↔ f.resolve expr.methodRef = .ok called := by
  rw [getMethod, mapError_ok]

theorem retrieveActiveBody_ok_iff (mtd : SootMethod) (body : Body) :
    ServiceHelperExtractor.retrieveActiveBody f mtd = .ok body ↔ f.retrieveActiveBody mtd = some body := by
  unfold ServiceHelperExtractor.retrieveActiveBody
  cases f.retrieveActiveBody mtd with
  | none => simp [throw, throwThe, MonadExceptOf.throw]
  | some body => simp [pure, Except.pure]

theorem nonNull_ok_iff (value : Option α) (found : α) : nonNull value = .ok found ↔ value = some found := by
  cases value with
  | none => simp [nonNull, throw, throwThe, MonadExceptOf.throw]
  | some value => simp [nonNull, pure, Except.pure]

theorem argument_ok_iff (expr : InvokeExpr) (arg : Immediate) :
    argument expr 0 = .ok arg ↔ ∃ rest, expr.args = arg :: rest := by
  unfold argument
  cases expr.args with
  | nil => simp [throw, throwThe, MonadExceptOf.throw]
  | cons first rest => simp [pure, Except.pure]

/-! ## One block -/

/-- The operand that a statement returns, other than null. -/
def returnedValue (f : Framework) : Stmt → Option Immediate
  | .ret op => if typeOf f (.immediate op) = nullType then none else some op
  | _ => none

theorem returnedValue_eq_some (u : Stmt) (op : Immediate) :
    returnedValue f u = some op ↔ u = .ret op ∧ typeOf f (.immediate op) ≠ nullType := by
  cases u with
  | ret value =>
    simp only [returnedValue, Option.ite_none_left_eq_some, Option.some.injEq, Stmt.ret.injEq]
    constructor
    · rintro ⟨filled, rfl⟩
      exact ⟨rfl, filled⟩
    · rintro ⟨rfl, filled⟩
      exact ⟨filled, rfl⟩
  | _ => simp [returnedValue]

theorem getReturn_eq (mtd : SootMethod) : getReturnFromMethod f mtd true = (do
    let b ← ServiceHelperExtractor.retrieveActiveBody f mtd
    pure (b.units.findSome? (returnedValue f))) := by
  unfold getReturnFromMethod
  refine congrArg _ (funext fun b => congrArg (fun search => pure (b.units.findSome? search)) (funext fun u => ?_))
  cases u <;> simp [returnedValue]

theorem getReturn_ok_iff (mtd : SootMethod) (op : Immediate) :
    getReturnFromMethod f mtd true = .ok (some op) ↔ FirstReturned f mtd op := by
  rw [getReturn_eq]
  unfold FirstReturned
  simp only [bind_ok, retrieveActiveBody_ok_iff, pure, Except.pure, Except.ok.injEq, List.findSome?_eq_some_iff,
    returnedValue_eq_some]
  constructor
  · rintro ⟨body, found, before, _, after, split, ⟨rfl, filled⟩, nulls⟩
    refine ⟨body, before, after, found, split, filled, fun other member => ?_⟩
    by_contra value
    have here := (returnedValue_eq_some (.ret other) other).mpr ⟨rfl, value⟩
    rw [nulls _ member] at here
    cases here
  · rintro ⟨body, before, after, found, split, filled, nulls⟩
    refine ⟨body, found, before, _, after, split, ⟨rfl, filled⟩, fun u member => ?_⟩
    refine Option.eq_none_iff_forall_ne_some.mpr fun other here => ?_
    obtain ⟨rfl, value⟩ := (returnedValue_eq_some u other).mp here
    exact value (nulls other member)

theorem asks_round (expr : InvokeExpr) (reply : Option String) : (do
      let called := f.signature (← getMethod f expr)
      if called = kGetServiceMtd ∨ called = kGetServiceMtd2 then pure (some (immediateText (← argument expr 0)))
      else pure none : Extraction (Option String)) = .ok reply ↔
    (Resolves f expr ∧ asksForBinder f expr = false ∧ reply = none) ∨
      (asksForBinder f expr = true ∧ ∃ tag rest, expr.args = tag :: rest ∧ reply = some (immediateText tag)) := by
  rw [bind_ok]
  simp only [getMethod_ok_iff, asksForBinder, Resolves]
  cases resolved : f.resolve expr.methodRef with
  | error problem => simp
  | ok called =>
    simp only [Except.ok.injEq, exists_eq_left', exists_eq', true_and, Bool.or_eq_true, beq_iff_eq]
    by_cases asks : f.signature called = kGetServiceMtd ∨ f.signature called = kGetServiceMtd2
    · simp only [asks, if_true, bind_ok, argument_ok_iff, pure, Except.pure, Except.ok.injEq, true_and,
        Bool.or_eq_false_iff, beq_eq_false_iff_ne, ne_eq]
      constructor
      · rintro ⟨tag, ⟨rest, given⟩, rfl⟩
        exact .inr ⟨tag, rest, given, rfl⟩
      · rintro (⟨silent, _⟩ | ⟨tag, rest, given, rfl⟩)
        · exact absurd asks (not_or.mpr silent)
        · exact ⟨tag, ⟨rest, given⟩, rfl⟩
    · have silent := not_or.mp asks
      simp only [silent, if_false, pure, Except.pure, Except.ok.injEq, false_and, or_false, Bool.or_eq_false_iff,
        beq_eq_false_iff_ne, ne_eq, not_false_eq_true, and_self, true_and]
      exact eq_comm

theorem extractBinderTag_ok_iff (found : f.retrieveActiveBody mtd = some body) (reply : Option String) :
    extractBinderTag f mtd = .ok reply ↔ BinderTag f mtd reply := by
  have same : f.invokes mtd = body.units.filterMap Stmt.invokeExpr? := by
    simp [Framework.invokes, Program.units, found]
  unfold extractBinderTag
  simp only [bind_ok, retrieveActiveBody_ok_iff, found, Option.some.injEq, exists_eq_left', ← same]
  cases reply with
  | none =>
    rw [plain_none_iff]
    simp only [asks_round, reduceCtorEq, and_true, and_false, exists_false, or_false]
    constructor
    · exact .silent
    · rintro ⟨all⟩
      assumption
  | some text =>
    rw [plain_found_iff]
    simp only [asks_round, reduceCtorEq, and_true, and_false, exists_false, or_false, false_or, Option.some.injEq]
    constructor
    · rintro ⟨before, expr, after, split, earlier, asks, tag, rest, given, rfl⟩
      exact .asked split earlier asks given
    · rintro ⟨split, earlier, asks, given⟩
      exact ⟨_, _, _, split, earlier, asks, _, _, given, rfl⟩

theorem block_ok_iff (cls : SootClass) (reply : Option ServiceApiClass) :
    extractServiceApiFromRegisterBlock f cls = .ok reply ↔ ∃ helper binderTag, Creates f cls helper binderTag ∧
      reply = some { helperClass := some helper, serviceName := binderTag } := by
  unfold extractServiceApiFromRegisterBlock Creates
  simp only [bind_ok, nonNull_ok_iff, pure, Except.pure, Except.ok.injEq]
  constructor
  · rintro ⟨createMtd, declared, ret, returned, op, rfl, helper, typed, tag, asked, rfl⟩
    have first := (getReturn_ok_iff createMtd op).mp returned
    obtain ⟨body, _, _, found, _⟩ := id first
    exact ⟨helper, tag, ⟨createMtd, op, declared, first, typed, (extractBinderTag_ok_iff found tag).mp asked⟩, rfl⟩
  · rintro ⟨helper, tag, ⟨createMtd, op, declared, first, typed, asked⟩, rfl⟩
    obtain ⟨body, _, _, found, _⟩ := id first
    exact ⟨createMtd, declared, some op, (getReturn_ok_iff createMtd op).mpr first, op, rfl, helper, typed, tag,
      (extractBinderTag_ok_iff found tag).mpr asked, rfl⟩

/-! ## The initializer -/

theorem resolves_of_registers (found : registers f expr = true) : Resolves f expr := by
  unfold registers at found
  split at found
  · rename_i called _ _ _ _ resolved _
    exact ⟨called, resolved⟩
  · cases found

/-- One call of the initializer: it leaves an entry exactly when it registers
something. -/
theorem register_ok_iff (expr : InvokeExpr) (reply : Option ServiceApiClass) :
    resolveServiceHelperRegister f expr = .ok reply ↔
      (Resolves f expr ∧ registers f expr = false ∧ reply = none) ∨
      (registers f expr = true ∧ ∃ api, Registered f expr api ∧ reply = some api) := by
  unfold resolveServiceHelperRegister registers Resolves Registered
  simp only [bind_ok, getMethod_ok_iff]
  cases resolved : f.resolve expr.methodRef with
  | error problem => simp
  | ok called =>
    simp only [Except.ok.injEq, exists_eq_left', exists_eq', true_and]
    split
    · rename_i managerName tag block rest args
      simp only [args, List.cons.injEq, Bool.and_eq_true, beq_iff_eq]
      by_cases registering : called.name = kServiceHelperRegisterFunc ∧ isClassConstant f tag = true
      · simp only [registering, and_self, if_true, bind_ok, nonNull_ok_iff, block_ok_iff]
        constructor
        · rintro ⟨blockCls, known, made, ⟨helper, binderTag, creates, rfl⟩, ran⟩
          cases ran
          exact .inr ⟨trivial, _, ⟨_, _, _, _, blockCls, helper, binderTag, ⟨rfl, rfl, rfl, rfl⟩, known, creates, rfl⟩, rfl⟩
        · rintro (⟨silent, _⟩ | ⟨_, api, ⟨_, _, _, _, blockCls, helper, binderTag, ⟨rfl, rfl, rfl, rfl⟩, known, creates, rfl⟩,
            rfl⟩)
          · simp at silent
          · exact ⟨blockCls, known, _, ⟨helper, binderTag, creates, rfl⟩, rfl⟩
      · have silent : (called.name == kServiceHelperRegisterFunc && isClassConstant f tag) = false := by
          simpa using registering
        simp only [registering, if_false, silent, pure, Except.pure, Except.ok.injEq, false_and, or_false, true_and]
        exact eq_comm
    · rename_i short
      split
      · rename_i managerName tag block rest _ args
        exact absurd args (short managerName tag block rest)
      · simp only [pure, Except.pure, Except.ok.injEq, true_and, Bool.false_eq_true, false_and, or_false]
        exact eq_comm

/-- The initializer is read exactly when every call of it resolves and every
registration in it has an entry, and the answer is those entries in order. -/
theorem helpers_exact (f : Framework) (apis : List ServiceApiClass) :
    findRegisteredServiceHelperClass f = .ok apis ↔ ∃ registerMtd body,
      (f.methods kServiceHelperRegisterCls).find? isInitMethod = some registerMtd ∧
      f.retrieveActiveBody registerMtd = some body ∧
      (∀ expr ∈ body.units.filterMap Stmt.invokeExpr?, Resolves f expr) ∧
      List.Forall₂ (Registered f) ((body.units.filterMap Stmt.invokeExpr?).filter (registers f)) apis := by
  unfold findRegisteredServiceHelperClass
  cases declared : (f.methods kServiceHelperRegisterCls).find? isInitMethod with
  | none => simp [throw, throwThe, MonadExceptOf.throw]
  | some registerMtd =>
    simp only [Option.some.injEq, exists_and_left, exists_eq_left']
    rw [bind_ok]
    refine exists_congr fun body => and_congr (retrieveActiveBody_ok_iff registerMtd body) ?_
    refine (collect_ok_iff register_ok_iff _ apis).trans (and_congr_left fun _ => forall₂_congr fun expr _ => ?_)
    cases found : registers f expr with
    | false => simp
    | true => simp [resolves_of_registers found]

end JgreAnalysis.HelperRegistrations
