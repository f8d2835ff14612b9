import JgreAnalysis.ImplicitCalls
import JgreAnalysis.InsertionReports

/-! What the analysis of a body says about its runs. A run takes the statements in
any order, as jumps may, and gives the locals what their types allow. What was
recorded of a local that is assigned once holds in each of them. -/
namespace JgreAnalysis.BodyRuns
open SootModel FrameworkScene BinderHierarchy PointToAnalysis LocalFacts ExitPointChecker ExitPointVerdict
open ImplicitCallResolver ImplicitCalls StatementOrder InsertionReports
open LoopLaws LastBindings
open Relation

/-! ## Runs -/

/-- An object, with the class that it was allocated as. -/
structure Obj where
  address : ℕ
  cls : SootClass
  deriving DecidableEq, Repr

/-- What the locals hold, nothing for null, and what the method has allocated. -/
structure RunState where
  store : Local → Option Obj
  made : List Obj

def RunState.put (s : RunState) (l : Local) (value : Option Obj) : RunState :=
  { s with store := Function.update s.store l value }

variable (f : Framework)

/-- A value of a class type is an object of that class or null. -/
def Typed (value : Option Obj) (type : SootType) : Prop :=
  ∀ o sc, value = some o → type = .refType sc → SubtypeOf f o.cls sc

/-- Neither an allocation nor a local that is copied, with a cast or without. -/
def fromElsewhere : Value → Bool
  | .newExpr _ | .immediate (.loc _) | .cast _ (.loc _) => false
  | _ => true

/-- What a statement does. Of values from elsewhere only their type is known. A
cast that fails has no step. -/
inductive Step : Stmt → RunState → RunState → Prop where
  | allocate (unused : ∀ o ∈ s.made, o.address ≠ address) (free : ∀ r o, s.store r = some o → o.address ≠ address) :
      Step (.assign (.immediate (.loc l)) (.newExpr cls)) s
        { s.put l (some ⟨address, cls⟩) with made := ⟨address, cls⟩ :: s.made }
  | copy : Step (.assign (.immediate (.loc l)) (.immediate (.loc r))) s (s.put l (s.store r))
  | cast (passes : Typed f (s.store r) type) :
      Step (.assign (.immediate (.loc l)) (.cast type (.loc r))) s (s.put l (s.store r))
  | take (elsewhere : fromElsewhere rightOp = true) (typed : Typed f value (typeOf f rightOp)) :
      Step (.assign (.immediate (.loc l)) rightOp) s (s.put l value)
  | enter (typed : Typed f value (typeOf f rightOp)) : Step (.identity (.immediate (.loc l)) rightOp) s (s.put l value)
  | pass (other : ∀ l, defines l u = false) : Step u s s

/-- What a local holds is of its type. -/
def Conforms (s : RunState) : Prop := ∀ l, Typed f (s.store l) (f.localType l)

/-- A state of a run of the method. -/
def Reached (mtd : SootMethod) (s : RunState) : Prop :=
  ReflTransGen (fun s next => ∃ u ∈ f.units mtd, Step f u s next ∧ Conforms f next) ⟨fun _ => none, []⟩ s

/-- The local is given the binder of an object of the class. -/
def BinderOf (mtd : SootMethod) (l : Local) (cls : SootClass) : Prop :=
  ∃ inv, Assigns f.toProgram mtd l (.invoke inv) ∧ inv.methodRef.name = "asBinder" ∧ inv.methodRef.declaringClass = cls

/-- In every run the local holds null, an object of the class, or the binder of
one. -/
def AlwaysHolds (mtd : SootMethod) (l : Local) (cls : SootClass) : Prop :=
  ∀ s, Reached f mtd s → ∀ o, s.store l = some o → SubtypeOf f o.cls cls ∨ BinderOf f mtd l cls

/-- In every run the local holds null or an object that the method allocated. -/
def AlwaysMade (mtd : SootMethod) (l : Local) : Prop :=
  ∀ s, Reached f mtd s → ∀ o, s.store l = some o → o ∈ s.made

/-! ## Where an object comes from -/

variable {f}

theorem store_put (s : RunState) (l : Local) (value : Option Obj) : (s.put l value).store l = value := by
  simp [RunState.put]

theorem store_put_other (s : RunState) (value : Option Obj) (other : (put == l) = false) :
    (s.put put value).store l = s.store l := by
  have differ : put ≠ l := by simpa using other
  simp [RunState.put, Ne.symm differ]

/-- A step leaves what the locals hold that it does not define, and what was made. -/
theorem step_frame (step : Step f u s next) : s.made ⊆ next.made ∧
    ∀ l, defines l u = false → next.store l = s.store l := by
  cases step with
  | allocate unused free => exact ⟨List.subset_cons_self _ _, fun l other => store_put_other s _ other⟩
  | copy => exact ⟨List.Subset.refl _, fun l other => store_put_other s _ other⟩
  | cast passes => exact ⟨List.Subset.refl _, fun l other => store_put_other s _ other⟩
  | take elsewhere typed => exact ⟨List.Subset.refl _, fun l other => store_put_other s _ other⟩
  | enter typed => exact ⟨List.Subset.refl _, fun l other => store_put_other s _ other⟩
  | pass => exact ⟨List.Subset.refl _, fun l other => rfl⟩

theorem reached_conforms (reached : Reached f mtd s) : Conforms f s := by
  cases reached with
  | refl => exact fun l o sc held => nomatch held
  | tail _ step =>
    obtain ⟨_, _, _, conforms⟩ := step
    exact conforms

/-- Whatever a local holds in a run, a statement that defines it gave it before. -/
theorem reached_given (reached : Reached f mtd s) (held : s.store l = some o) : ∃ u ∈ f.units mtd, defines l u = true ∧
    ∃ before next, Reached f mtd before ∧ Step f u before next ∧ next.store l = some o ∧ next.made ⊆ s.made := by
  induction reached with
  | refl => cases held
  | @tail before next earlier step ih =>
    obtain ⟨u, inside, step, _⟩ := step
    obtain ⟨more, kept⟩ := step_frame step
    cases defined : defines l u with
    | true => exact ⟨u, inside, defined, before, next, earlier, step, held, List.Subset.refl _⟩
    | false =>
      obtain ⟨v, listed, gives, start, given, first, took, holds, made⟩ := ih ((kept l defined).symm.trans held)
      exact ⟨v, listed, gives, start, given, first, took, holds, fun o old => more (made old)⟩

/-- What a local holds that is assigned once, its one statement gave it. -/
theorem given_by (once : AssignedOnce f.toProgram mtd l) (reached : Reached f mtd s) (held : s.store l = some o)
    (inside : u ∈ f.units mtd) (defined : defines l u = true) : ∃ before next, Reached f mtd before ∧ Step f u before next ∧
      next.store l = some o ∧ next.made ⊆ s.made := by
  obtain ⟨v, listed, gives, given⟩ := reached_given reached held
  exact definition_unique once listed inside gives defined ▸ given

/-- What an allocation gives is of its class, and the method's own. -/
theorem allocated_holds (once : AssignedOnce f.toProgram mtd l) (reached : Reached f mtd s) (held : s.store l = some o)
    (inside : Assigns f.toProgram mtd l (.newExpr cls)) : o.cls = cls ∧ o ∈ s.made := by
  obtain ⟨before, next, _, step, given, made⟩ := given_by once reached held inside (by simp [defines])
  cases step with
  | allocate unused free =>
    cases (store_put ..).symm.trans given
    exact ⟨rfl, made List.mem_cons_self⟩
  | take elsewhere typed => cases elsewhere
  | pass other => simp [defines] at other

/-- What an assignment gives is of the type of its right side. -/
theorem assigned_typed (once : AssignedOnce f.toProgram mtd l) (reached : Reached f mtd s) (held : s.store l = some o)
    (inside : Assigns f.toProgram mtd l rightOp) : Typed f (some o) (typeOf f rightOp) := by
  obtain ⟨before, next, earlier, step, given, _⟩ := given_by once reached held inside (by simp [defines])
  cases step with
  | allocate unused free =>
    cases (store_put ..).symm.trans given
    intro object sc same type
    cases same
    cases type
    exact .refl
  | copy => exact ((store_put ..).symm.trans given) ▸ reached_conforms earlier _
  | cast passes => exact ((store_put ..).symm.trans given) ▸ passes
  | take elsewhere typed => exact ((store_put ..).symm.trans given) ▸ typed
  | pass other => simp [defines] at other

theorem entered_typed (once : AssignedOnce f.toProgram mtd l) (reached : Reached f mtd s) (held : s.store l = some o)
    (inside : .identity (.immediate (.loc l)) rightOp ∈ f.units mtd) : Typed f (some o) (typeOf f rightOp) := by
  obtain ⟨before, next, _, step, given, _⟩ := given_by once reached held inside (by simp [defines])
  cases step with
  | enter typed => exact ((store_put ..).symm.trans given) ▸ typed
  | pass other => simp [defines] at other

/-! ## What was recorded -/

theorem always_made (once : AssignedOnce f.toProgram mtd l) (new : AssignedNew f.toProgram mtd l) :
    AlwaysMade f mtd l := by
  intro s reached o held
  obtain ⟨cls, assigned⟩ := new
  exact (allocated_holds once reached held assigned).2

/-- What a body records of a local, one of its statements says. -/
theorem recorded_by (holds : Holds p mtd l cls) :
    ∃ u ∈ p.units mtd, assignedClass u = some (l, cls) ∨ parameterClass p u = some (l, cls) := by
  rcases holds with ⟨before, after, split, _⟩ | ⟨⟨before, after, split, _⟩, _⟩
  · obtain ⟨u, inside, named⟩ := List.mem_filterMap.mp (split ▸ by simp : (l, cls) ∈ (p.units mtd).filterMap assignedClass)
    exact ⟨u, inside, .inl named⟩
  · obtain ⟨u, inside, named⟩ := List.mem_filterMap.mp
      (split ▸ by simp : (l, cls) ∈ (p.units mtd).filterMap (parameterClass p))
    exact ⟨u, inside, .inr named⟩

theorem assignedClass_eq_some (u : Stmt) (l : Local) (cls : SootClass) : assignedClass u = some (l, cls) ↔
    ∃ rightOp, u = .assign (.immediate (.loc l)) rightOp ∧ classOfValue rightOp = some cls := by
  unfold assignedClass
  split <;> simp_all [and_comm]

theorem parameterClass_eq_some (u : Stmt) (l : Local) (cls : SootClass) (named : parameterClass p u = some (l, cls)) :
    ∃ index, u = .identity (.immediate (.loc l)) (.parameterRef index (.refType cls)) := by
  unfold parameterClass at named
  split at named
  · split at named
    · cases named
      exact ⟨_, rfl⟩
    · cases named
  · cases named

/-- The result of an interface call is of the class that was recorded for it. -/
theorem called_holds (inside : Assigns f.toProgram mtd l (.invoke inv)) (typed : Typed f (some o) (typeOf f (.invoke inv)))
    (known : classOfValue (.invoke inv) = some cls) : SubtypeOf f o.cls cls ∨ BinderOf f mtd l cls := by
  have known : (if inv.isInterface then resolveInterfaceInvoke inv else none) = some cls := known
  obtain ⟨_, known⟩ := Option.ite_none_right_eq_some.mp known
  unfold resolveInterfaceInvoke at known
  split at known
  · rename_i binder
    exact .inr ⟨inv, inside, binder, Option.some.inj known⟩
  · split at known
    · rename_i sc type
      cases known
      exact .inl (typed o cls rfl type)
    · cases known

theorem always_holds (once : AssignedOnce f.toProgram mtd l) (recorded : Holds f.toProgram mtd l cls) :
    AlwaysHolds f mtd l cls := by
  intro s reached o held
  obtain ⟨u, inside, assigned | parameter⟩ := recorded_by recorded
  · obtain ⟨rightOp, rfl, known⟩ := (assignedClass_eq_some u l cls).mp assigned
    have typed := assigned_typed once reached held inside
    cases rightOp with
    | instanceFieldRef base field =>
      cases type : field.type with
      | refType sc =>
        obtain rfl : sc = cls := by simpa [classOfValue, classOfType, type] using known
        exact .inl (typed o sc rfl type)
      | other text => simp [classOfValue, classOfType, type] at known
    | newExpr sc =>
      cases known
      exact .inl (typed o cls rfl rfl)
    | invoke inv => exact called_holds inside typed known
    | _ => cases known
  · obtain ⟨index, rfl⟩ := parameterClass_eq_some u l cls parameter
    exact .inl (entered_typed once reached held inside o cls rfl rfl)

/-! ## What the check says -/

theorem described_of_check (ran : check p mtd = .ok (some vul, flag)) : ∃ u ∈ p.units mtd, Describes p mtd u vul := by
  obtain ⟨before, u, after, middle, split, _, reports⟩ := (loop_found_iff _).mp ran
  obtain ⟨_, described, _⟩ := (checkStatement_iff ..).mp reports
  exact ⟨u, by simp [split], (described vul).mp rfl⟩

theorem quiet_of_check (ran : check p mtd = .ok (none, flag)) : ∀ u ∈ p.units mtd, Quiet p mtd u :=
  ((quiet_iff mtd (p.units mtd) false flag).mp ran).1

/-- The first binder among some arguments, where there is one. -/
theorem exists_firstBinder (mtd : SootMethod) (args : List Immediate) :
    (∃ cls, FirstBinder p mtd args cls) ∨
      ∀ l, .loc l ∈ args → ∀ cls, getLocalDefine (run p mtd) l = some cls → isExitClass p cls = false := by
  cases found : binderArgument p (run p mtd) args with
  | some cls => exact .inl ⟨cls, (binderArgument_iff mtd args cls).mp found⟩
  | none =>
    refine .inr fun l member cls known => Bool.eq_false_iff.mpr fun exits => ?_
    have some_ := (binderArgument_isSome (run p mtd) args).mpr ⟨l, cls, member, known, exits⟩
    rw [found] at some_
    cases some_

/-- What the analysis says of a body is so in every run of it, as far as the locals
that it speaks of are assigned once. A local that counts as local holds what the
method allocated, and a known class is that of what is held. What is found is the
registration of a callback, or the call of a list's method with an argument that
always is what is reported. Where nothing is found, the lists are the method's own
or no argument is known to be a binder. -/
structure HoldsInRuns (f : Framework) (mtd : SootMethod) : Prop where
  counted : ∀ l, AssignedOnce f.toProgram mtd l → isLocalValue (run f.toProgram mtd) l = true → AlwaysMade f mtd l
  known : ∀ l, AssignedOnce f.toProgram mtd l → ∀ cls, getLocalDefine (run f.toProgram mtd) l = some cls →
    AlwaysHolds f mtd l cls
  found : ∀ vul flag, check f.toProgram mtd = .ok (some vul, flag) → ∃ u ∈ f.units mtd, ∃ inv, u.invokeExpr? = some inv ∧
    (RegistersCallback f.toProgram inv ∨ ∃ l, .loc l ∈ inv.args ∧ isExitClass f.toProgram vul.binderCls = true ∧
      (AssignedOnce f.toProgram mtd l → AlwaysHolds f mtd l vul.binderCls))
  silent : ∀ flag, check f.toProgram mtd = .ok (none, flag) → ∀ u ∈ f.units mtd, ∀ inv, u.invokeExpr? = some inv →
    inv.isInterface = false → ∀ cur, f.resolve inv.methodRef = .ok cur →
    cur.declaringClass.name ∈ listClassTypes → cur.name ∈ listAddMethods →
    (∃ receiver, getInvokeLocalFiled inv = some receiver ∧
      (AssignedOnce f.toProgram mtd receiver → AlwaysMade f mtd receiver)) ∨
    ∀ l, .loc l ∈ inv.args → ∀ cls, getLocalDefine (run f.toProgram mtd) l = some cls →
      isExitClass f.toProgram cls = false

/-- The analysis of a body speaks of every run. -/
theorem findings_hold (f : Framework) (mtd : SootMethod) : HoldsInRuns f mtd where
  counted l once counted := always_made once ((isLocalValue_iff mtd l).mp counted)
  known l once cls known := always_holds once ((localDefine_iff mtd l cls).mp known)
  found vul flag ran := by
    obtain ⟨u, inside, ⟨invoked, _, resolved, cls, name⟩ | ⟨invoked, _, _, _, _, _, binder⟩⟩ := described_of_check ran
    · exact ⟨u, inside, _, invoked, .inl ⟨_, resolved, cls, name⟩⟩
    · obtain ⟨before, l, after, split, holds, exits, _⟩ := binder
      exact ⟨u, inside, _, invoked, .inr ⟨l, by simp [split], exits, fun once => always_holds once holds⟩⟩
  silent flag ran u inside inv invoked other cur resolved cls name := by
    have silent := (quiet_of_check ran u inside).2
    by_cases own : ∃ receiver, getInvokeLocalFiled inv = some receiver ∧ AssignedNew f.toProgram mtd receiver
    · obtain ⟨receiver, called, new⟩ := own
      exact .inl ⟨receiver, called, fun once => always_made once new⟩
    · right
      refine (exists_firstBinder mtd inv.args).resolve_left ?_
      rintro ⟨binderCls, binder⟩
      have outside (receiver : Local) (called : getInvokeLocalFiled inv = some receiver) :
          ¬ AssignedNew f.toProgram mtd receiver := fun new => own ⟨receiver, called, new⟩
      exact silent _ (.list invoked other resolved cls name outside binder)

/-- A body that makes a callback and puts it into a list has a run in which it
holds the callback. -/
example : ∃ s, Reached (sampleFramework (sampleProgram fun _ => inserting)) (sampleMethod "entry") s ∧
    s.store ⟨"callback", 0⟩ = some ⟨0, ⟨"Callback"⟩⟩ :=
  ⟨_, .single ⟨_, .head _, .allocate nofun nofun, fun _ _ _ _ type => nomatch type⟩, rfl⟩

/-! ## What implicit calls lead to -/

/-- What is recorded of a local that is assigned once is what its statement gives. -/
theorem holds_of_assigned (once : AssignedOnce p mtd l) (inside : Assigns p mtd l rightOp)
    (known : classOfValue rightOp = some cls) : Holds p mtd l cls := by
  have recorded : (l, cls) ∈ (p.units mtd).filterMap assignedClass :=
    List.mem_filterMap.mpr ⟨_, inside, (assignedClass_eq_some _ l cls).mpr ⟨rightOp, rfl, known⟩⟩
  obtain ⟨other, last⟩ := (exists_isLast_iff _ l).mpr ⟨_, recorded, rfl⟩
  have listed : (l, other) ∈ (p.units mtd).filterMap assignedClass := by
    obtain ⟨before, after, split, _⟩ := last
    simp [split]
  obtain ⟨u, member, named⟩ := List.mem_filterMap.mp listed
  obtain ⟨value, rfl, same⟩ := (assignedClass_eq_some u l other).mp named
  cases definition_unique once member inside (by simp [defines]) (by simp [defines])
  cases same.symm.trans known
  exact .inl last

/-- The methods that an implicit call leads to are those of objects that are passed
there: each belongs to a class that an argument always has. And of an object that
the method allocates no callback is missed that passes the test of the resolver. -/
structure CallsBackInRuns (f : Framework) (inv : InvokeExpr) (mtd : SootMethod) : Prop where
  passed : ∀ m ∈ resolve f.toProgram inv mtd, ∃ (i : ℕ) (l : Local) (parameter argument : SootClass),
    inv.methodRef.parameterTypes[i]? = some (.refType parameter) ∧ inv.args[i]? = some (.loc l) ∧
    m ∈ f.methods argument ∧ Overrides f parameter m ∧ (AssignedOnce f.toProgram mtd l → AlwaysHolds f mtd l argument)
  noneMissed : isImplicitCall f.toProgram inv = true → ∀ (i : ℕ) (l : Local) (parameter : SootClass),
    inv.methodRef.parameterTypes[i]? = some (.refType parameter) → inv.args[i]? = some (.loc l) →
    AssignedOnce f.toProgram mtd l → AssignedNew f.toProgram mtd l → ∀ s, Reached f mtd s → ∀ o, s.store l = some o →
    PassesTest f o.cls parameter → ∀ m ∈ f.methods o.cls, Overrides f parameter m →
    m.subSignature ≠ "void <init>()" → m ∈ resolve f.toProgram inv mtd

/-- Implicit calls are followed to methods of what is passed. -/
theorem callbacks_hold (f : Framework) (inv : InvokeExpr) (mtd : SootMethod) : CallsBackInRuns f inv mtd where
  passed m followed := by
    have implicit : isImplicitCall f.toProgram inv = true := by
      by_contra explicit
      simp [resolve, explicit] at followed
    obtain ⟨parameter, argument, ⟨i, l, typed, given, known⟩, _, declared, overrides, _⟩ :=
      (mem_resolve implicit m).mp followed
    exact ⟨i, l, parameter, argument, typed, given, declared, overrides,
      fun once => always_holds once ((localDefine_iff mtd l argument).mp known)⟩
  noneMissed implicit i l parameter typed given once new s reached o held passes m declared overrides ordinary := by
    obtain ⟨cls, inside⟩ := new
    have same := (allocated_holds once reached held inside).1
    have known : getLocalDefine (run f.toProgram mtd) l = some o.cls :=
      (localDefine_iff mtd l o.cls).mpr (same ▸ holds_of_assigned once inside rfl)
    exact (mem_resolve implicit m).mpr
      ⟨parameter, o.cls, ⟨i, l, typed, given, known⟩, passes, declared, overrides, ordinary⟩

end JgreAnalysis.BodyRuns
