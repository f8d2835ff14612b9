import JgreAnalysis.BodyRuns
import JgreAnalysis.ServiceExtraction

/-! What the class of a service says of the runs that register it. The solver goes
back over the statements of a body, and where these hand on one local's object to
the next it comes to a class of the object that is registered. -/
namespace JgreAnalysis.ServiceRuns
open SootModel FrameworkScene BinderHierarchy LocalFacts ImplicitCalls JimpleValueSolver ValueDefinitions
open ServiceImplExtractor ServiceRegistrations ServiceExtraction BodyRuns
open LoopLaws
open Relation

variable (f : Framework)

/-- The statement hands on what another local holds. -/
def handsOn : Stmt → Bool
  | .assign (.immediate (.loc _)) (.immediate (.loc _)) | .assign (.immediate (.loc _)) (.cast _ (.loc _)) => true
  | _ => false

/-- The statements define locals that are assigned once, and up to the last one
they hand on what others hold. -/
structure PlainSteps (mtd : SootMethod) (steps : List Stmt) : Prop where
  locals : ∀ u ∈ steps, ∃ l, defines l u = true ∧ AssignedOnce f.toProgram mtd l
  handed : ∀ u ∈ steps.dropLast, handsOn u = true

/-- The class is that of the method, which asks some object for its binder. -/
def AsksBinder (mtd : SootMethod) (cls : SootClass) : Prop :=
  cls = mtd.declaringClass ∧ ∃ u ∈ f.units mtd, ∃ leftOp inv called, definitionOf u = some (leftOp, .invoke inv) ∧
    f.resolve inv.methodRef = .ok called ∧ called.name = kAsBinder

/-- In every run the local holds null or an object of the class, unless a binder
was asked for. -/
def AlwaysServes (mtd : SootMethod) (l : Local) (cls : SootClass) : Prop :=
  ∀ s, Reached f mtd s → ∀ o, s.store l = some o → SubtypeOf f o.cls cls ∨ AsksBinder f mtd cls

/-- The left side of the statement is the local, or a field of its object. -/
def About (l : Local) (u : Stmt) : Prop :=
  ∃ leftOp rightOp, definitionOf u = some (leftOp, rightOp) ∧ getExprValue leftOp = .immediate (.loc l)

/-- The first statement about the local allocates an object of the class. -/
def AllocatedFirst (mtd : SootMethod) (l : Local) (cls : SootClass) : Prop :=
  ∃ before after, f.units mtd = before ++ .assign (.immediate (.loc l)) (.newExpr cls) :: after ∧ ∀ u ∈ before, ¬ About l u

variable {f}

/-! ## Along a chain -/

theorem definition_eq (defined : definitionOf u = some (leftOp, rightOp)) :
    u = .assign leftOp rightOp ∨ u = .identity leftOp rightOp := by
  cases u <;> simp_all [definitionOf]

theorem defines_iff (l : Local) (u : Stmt) :
    defines l u = true ↔ ∃ rightOp, definitionOf u = some (.immediate (.loc l), rightOp) := by
  unfold defines
  split
  · simp [definitionOf]
  · simp [definitionOf]
  · rename_i noAssign noIdentity
    refine iff_of_false Bool.false_ne_true ?_
    rintro ⟨rightOp, defined⟩
    rcases definition_eq defined with rfl | rfl
    · exact noAssign _ _ rfl
    · exact noIdentity _ _ rfl

/-- The left side of a statement about a local that defines one is the local. -/
theorem left_local (defined : definitionOf u = some (leftOp, rightOp)) (about : getExprValue leftOp = .immediate (.loc l))
    (gives : defines other u = true) : leftOp = .immediate (.loc l) ∧ other = l := by
  obtain ⟨_, same⟩ := (defines_iff other u).mp gives
  cases defined.symm.trans same
  cases about
  exact ⟨rfl, rfl⟩

/-- What a definition gives is of the type of its right side. -/
theorem definition_typed (once : AssignedOnce f.toProgram mtd l) (reached : Reached f mtd s) (held : s.store l = some o)
    (inside : u ∈ f.units mtd) (defined : definitionOf u = some (.immediate (.loc l), rightOp)) :
    Typed f (some o) (typeOf f rightOp) := by
  rcases definition_eq defined with rfl | rfl
  · exact assigned_typed once reached held inside
  · exact entered_typed once reached held inside

/-- The class that the solver gives a right side is that of its type, or the
method's own where a binder is asked for. -/
theorem definedClass_cases (known : definedClass f curCls assign = .ok (some cls)) :
    typeOf f assign = .refType cls ∨ (cls = curCls ∧ ∃ inv called, assign = .invoke inv ∧
      f.resolve inv.methodRef = .ok called ∧ called.name = kAsBinder) := by
  have typed (known : getClsFromValue f assign = some cls) : typeOf f assign = .refType cls := by
    unfold getClsFromValue at known
    cases type : typeOf f assign with
    | refType sc =>
      rw [type] at known
      cases known
      rfl
    | other text =>
      rw [type] at known
      cases known
  cases assign with
  | invoke inv =>
    obtain ⟨called, resolved, known⟩ := bind_ok.mp known
    split at known
    · rename_i binder
      cases known
      exact .inr ⟨rfl, inv, called, rfl, resolved, binder⟩
    · exact .inl (typed (Except.ok.inj known))
  | _ => exact .inl (typed (Except.ok.inj known))

/-- What is handed on was held before. -/
theorem handed_on (once : AssignedOnce f.toProgram mtd l) (reached : Reached f mtd s) (held : s.store l = some o)
    (inside : u ∈ f.units mtd) (defined : definitionOf u = some (.immediate (.loc l), rightOp)) (hands : handsOn u = true)
    (about : getExprValue rightOp = .immediate (.loc r)) : ∃ before, Reached f mtd before ∧ before.store r = some o := by
  have gives : defines l u = true := by
    rcases definition_eq defined with rfl | rfl <;> simp [defines]
  obtain ⟨before, next, earlier, step, given, _⟩ := given_by once reached held inside gives
  refine ⟨before, earlier, ?_⟩
  cases step with
  | copy =>
    cases defined
    cases about
    exact (store_put ..).symm.trans given
  | cast passes =>
    cases defined
    cases about
    exact (store_put ..).symm.trans given
  | allocate unused free => cases hands
  | enter typed => cases hands
  | pass other => exact absurd gives (by simp [other l])
  | @take _ _ _ right elsewhere typed =>
    cases defined
    unfold handsOn at hands
    split at hands
    · rename_i same
      cases same
      cases elsewhere
    · rename_i same
      cases same
      cases elsewhere
    · cases hands

/-- Statements are taken for a local or a value about one. -/
theorem taken_local (taken : Taken f mtd steps v cls) : ∃ l, getExprValue v = .immediate (.loc l) := by
  cases taken with
  | last first =>
    obtain ⟨_, ⟨_, l, _, _, here⟩, _⟩ := firstOffer_spec first
    exact ⟨l, here⟩
  | next first _ =>
    obtain ⟨_, ⟨_, l, _, _, here⟩, _⟩ := firstOffer_spec first
    exact ⟨l, here⟩

/-- Along statements that hand on one object the class at their end is that of what
the first local holds. -/
theorem taken_serves (taken : Taken f mtd steps v cls) (plain : PlainSteps f mtd steps)
    (about : getExprValue v = .immediate (.loc l)) : AlwaysServes f mtd l cls := by
  induction taken generalizing l with
  | @last v u assign cls first =>
    obtain ⟨inside, ⟨leftOp, r, defined, left, cur⟩, known⟩ := firstOffer_spec first
    obtain rfl : r = l := by simpa using cur.symm.trans about
    obtain ⟨other, gives, once⟩ := plain.locals u List.mem_cons_self
    obtain ⟨rfl, rfl⟩ := left_local defined left gives
    intro s reached o held
    rcases definedClass_cases known with type | ⟨same, inv, called, rfl, resolved, binder⟩
    · exact .inl (definition_typed once reached held inside defined o cls rfl type)
    · exact .inr ⟨same, u, inside, _, inv, called, defined, resolved, binder⟩
  | @next v u assign other steps cls first rest ih =>
    obtain ⟨inside, ⟨leftOp, r, defined, left, cur⟩, _⟩ := firstOffer_spec first
    obtain rfl : r = l := by simpa using cur.symm.trans about
    obtain ⟨other, gives, once⟩ := plain.locals u List.mem_cons_self
    obtain ⟨rfl, rfl⟩ := left_local defined left gives
    obtain ⟨source, here⟩ := taken_local rest
    have more : steps ≠ [] := by
      cases rest <;> simp
    have hands : handsOn u = true := plain.handed u (by simp [List.dropLast_cons_of_ne_nil more])
    have serves := ih ⟨fun w listed => plain.locals w (List.mem_cons_of_mem _ listed), fun w listed =>
      plain.handed w (by simp [List.dropLast_cons_of_ne_nil more, listed])⟩ here
    intro s reached o held
    obtain ⟨before, earlier, given⟩ := handed_on once reached held inside defined hands here
    exact serves before earlier o given

theorem taken_of_solved (solved : solvedClass f mtd lev v = .ok (some cls)) :
    ∃ steps, steps.length ≤ lev ∧ Taken f mtd steps v cls := by
  induction lev generalizing v with
  | zero => cases solved
  | succ lev ih =>
    rw [solvedClass] at solved
    cases first : firstOffer f mtd v with
    | error problem =>
      rw [first] at solved
      cases solved
    | ok offered =>
      cases offered with
      | none =>
        rw [first] at solved
        cases solved
      | some found =>
        rw [first] at solved
        dsimp only at solved
        split at solved
        · obtain ⟨steps, short, taken⟩ := ih solved
          exact ⟨found.statement :: steps, Nat.succ_le_succ short, .next first taken⟩
        · cases solved
          exact ⟨[found.statement], by simp, .last first⟩

/-! ## At a registration -/

theorem offer_silent (curCls : SootClass) (silent : ¬ About l u) : offer f curCls (.immediate (.loc l)) u = .ok none := by
  unfold offer
  cases defined : definitionOf u with
  | none => rfl
  | some sides =>
    obtain ⟨leftOp, assign⟩ := sides
    refine if_neg fun here => silent ?_
    obtain ⟨r, left, cur⟩ := (sameLocal_iff _ _).mp here.1
    cases cur
    exact ⟨leftOp, assign, defined, left⟩

/-- A local that is first allocated has the class of the allocation. -/
theorem solved_of_allocated (first : AllocatedFirst f mtd l cls) (serves : cls.name ≠ kIBinderCls) (lev : ℕ) :
    solvedClass f mtd (lev + 1) (.immediate (.loc l)) = .ok (some cls) := by
  obtain ⟨before, after, split, silent⟩ := first
  have offered : firstOffer f mtd (.immediate (.loc l)) =
      .ok (some ⟨.assign (.immediate (.loc l)) (.newExpr cls), .newExpr cls, cls⟩) := by
    refine (plain_found_iff _ _ _).mpr ⟨before, _, after, split, fun u earlier => offer_silent _ (silent u earlier), ?_⟩
    simp [offer, definitionOf, getExprValue, sameLocal, isNull, definedClass, getClsFromValue, typeOf]
    rfl
  rw [solvedClass, offered]
  exact if_neg serves

/-- A site whose class is found registers a local, from which statements lead to
the class. -/
theorem implementedBy_taken (implemented : CallSite.implementedBy f site = some cls) : ∃ l steps,
    site.expr.args[1]? = some (.loc l) ∧ steps.length ≤ 3 ∧ Taken f site.mtd steps (.immediate (.loc l)) cls := by
  unfold CallSite.implementedBy CallSite.solved at implemented
  cases given : site.expr.args[1]? with
  | none =>
    rw [given] at implemented
    cases implemented
  | some binder =>
    rw [given] at implemented
    cases solved : solvedClass f site.mtd 3 (.immediate binder) with
    | error problem =>
      simp only [solved] at implemented
      cases implemented
    | ok found =>
      simp only [solved] at implemented
      obtain rfl : found = some cls := implemented
      obtain ⟨steps, short, taken⟩ := taken_of_solved solved
      obtain ⟨l, here⟩ := taken_local taken
      cases here
      exact ⟨l, steps, rfl, short, taken⟩

/-- The services that are extracted are those that runs register. Behind each stands
a call, and at most three statements lead from its argument to the class; in every
run the argument is an object of the class, if these hand on one object. And a call
with an argument that its body first allocates leaves a service of that very
class. -/
theorem services_in_runs (a : AndroidFramework) : ∃ enough, ∀ rounds ≥ enough, ∃ services,
    extractServiceImpl a.toFramework rounds = .ok services ∧
    (∀ api ∈ services, ∃ site ∈ serviceSites a.toFramework, api.serviceName = site.serviceName ∧
      ∃ cls l steps, api.implClass = some cls ∧ site.expr.args[1]? = some (.loc l) ∧ steps.length ≤ 3 ∧
        Taken a.toFramework site.mtd steps (.immediate (.loc l)) cls ∧
        (PlainSteps a.toFramework site.mtd steps → AlwaysServes a.toFramework site.mtd l cls)) ∧
    ∀ site ∈ serviceSites a.toFramework, ∀ l cls, site.expr.args[1]? = some (.loc l) →
      AllocatedFirst a.toFramework site.mtd l cls → cls.name ≠ kIBinderCls →
      (∃ api ∈ services, api.implClass = some cls ∧ api.serviceName = site.serviceName) ∧
      (AssignedOnce a.toProgram site.mtd l →
        ∀ s, Reached a.toFramework site.mtd s → ∀ o, s.store l = some o → o.cls = cls) := by
  obtain ⟨enough, serves⟩ := services_ok a
  refine ⟨enough, fun rounds more => ?_⟩
  obtain ⟨services, interfaceOf, serving, entries, _⟩ := serves rounds more
  refine ⟨services, serving, fun api listed => ?_, fun site taken l cls given first other => ⟨?_, ?_⟩⟩
  · obtain ⟨site, taken, made⟩ := List.mem_filterMap.mp (entries.mem_iff.mp listed)
    obtain ⟨cls, implemented, rfl⟩ := Option.map_eq_some_iff.mp made
    obtain ⟨l, steps, given, short, leads⟩ := implementedBy_taken implemented
    exact ⟨site, taken, rfl, cls, l, steps, rfl, given, short, leads, fun plain => taken_serves leads plain rfl⟩
  · have implemented : CallSite.implementedBy a.toFramework site = some cls := by
      unfold CallSite.implementedBy CallSite.solved
      rw [given]
      dsimp only
      rw [solved_of_allocated first other 2]
      rfl
    exact ⟨_, entries.mem_iff.mpr (List.mem_filterMap.mpr ⟨site, taken, Option.map_eq_some_iff.mpr ⟨cls, implemented, rfl⟩⟩),
      rfl, rfl⟩
  · intro once s reached o held
    obtain ⟨before, after, split, _⟩ := first
    have inside : Assigns a.toProgram site.mtd l (.newExpr cls) := by
      change _ ∈ a.toFramework.units site.mtd
      simp [split]
    exact (allocated_holds once reached held inside).1

/-- A body that takes the service from a field of a holder that it makes. -/
def holding : Framework :=
  sampleFramework <| sampleProgram fun _ =>
    [.assign (.immediate (.loc ⟨"holder", 0⟩)) (.newExpr ⟨"Holder"⟩),
      .assign (.immediate (.loc ⟨"service", 1⟩)) (.instanceFieldRef ⟨"holder", 0⟩ ⟨"service", .refType ⟨kIBinderCls⟩⟩),
      invocation .static "android.os.ServiceManager" "addService" [.constant "held", .loc ⟨"service", 1⟩]]

theorem holding_apart : ¬ SubtypeOf holding ⟨"Callback"⟩ ⟨"Holder"⟩ := by
  have steps (sc sup : SootClass) (step : DirectSupertype holding sc sup) : sup ∈ holding.interfaces sc := by
    rcases step with superclass | inf
    · cases superclass
    · exact inf
  intro above
  rcases ReflTransGen.cases_head above with same | ⟨sup, first, rest⟩
  · exact absurd same (by decide)
  · obtain rfl := List.mem_singleton.mp (steps _ _ first)
    rcases ReflTransGen.cases_head rest with same | ⟨_, second, _⟩
    · exact absurd same (by decide)
    · cases steps _ _ second

/-- The solver goes on with the holder and takes its class, which a callback in the
field does not have. -/
theorem holding_misled :
    solvedClass holding (sampleMethod "start") 3 (.immediate (.loc ⟨"service", 1⟩)) = .ok (some ⟨"Holder"⟩) ∧
    ¬ AlwaysServes holding (sampleMethod "start") ⟨"service", 1⟩ ⟨"Holder"⟩ := by
  refine ⟨by decide +kernel, fun serves => ?_⟩
  have callback : SubtypeOf holding ⟨"Callback"⟩ ⟨kIBinderCls⟩ := .single (.inr (by decide))
  let start : RunState := ⟨fun _ => none, []⟩
  have reached : Reached holding (sampleMethod "start") (start.put ⟨"service", 1⟩ (some ⟨0, ⟨"Callback"⟩⟩)) := by
    refine .single ⟨_, List.mem_cons_of_mem _ List.mem_cons_self, .take rfl ?_, fun _ _ _ _ type => nomatch type⟩
    rintro o sc ⟨⟩ ⟨⟩
    exact callback
  rcases serves _ reached _ (store_put ..) with above | ⟨own, _⟩
  · exact holding_apart above
  · exact absurd own (by decide)

end JgreAnalysis.ServiceRuns
