import JgreAnalysis.ServiceImplExtractor
import JgreAnalysis.ValueDefinitions

/-! What the two searches for services make of the calls that register them. A
call that adds a service leaves one entry, wherever it stands. Of the calls that
publish services only the first one of a class counts. And neither search guards
the lookup of a called method, although the filters in front of them do. -/
namespace JgreAnalysis.ServiceRegistrations
open SootModel FrameworkScene ServiceApi ServiceHelperExtractor ServiceImplExtractor
open LoopLaws JimpleValueSolver ValueDefinitions

/-! ## Call sites -/

variable (f : Framework)

/-- The call publishes a service, as far as its name says. -/
def publishes (expr : InvokeExpr) : Bool :=
  match f.resolve expr.methodRef with
  | .ok called => called.name == kServiceImplPublishFunc
  | .error _ => false

abbrev addsService (expr : InvokeExpr) : Bool := invokesMethod f kServiceImplAddMtdName kServiceImplAddClsName expr

/-- A framework as Soot and the platform promise it. A class declares a method
once, only a reference to a parameter, to `this` or to an exception stands on the
right of an identity statement, and every overload of the two registering methods
takes a name and a binder. -/
structure Platform extends Framework where
  methods_distinct : ∀ cls, (methods cls).Nodup
  identity_reference : ∀ mtd leftOp expr, Stmt.identity leftOp (.invoke expr) ∉ toFramework.units mtd
  added_arguments : ∀ mtd, ∀ expr ∈ toFramework.invokes mtd, addsService toFramework expr = true → 2 ≤ expr.args.length
  published_arguments : ∀ mtd, ∀ expr ∈ toFramework.invokes mtd, publishes toFramework expr = true → 2 ≤ expr.args.length

/-- A call, with the method whose body it stands in. -/
structure CallSite where
  mtd : SootMethod
  expr : InvokeExpr
  deriving DecidableEq, Repr

/-- The calls of a kind in the bodies of a class. -/
def callSites (kind : InvokeExpr → Bool) (cls : SootClass) : List CallSite :=
  (f.methods cls).flatMap fun mtd => ((f.invokes mtd).filter kind).map (CallSite.mk mtd)

/-- The classes that the search for added services is about. -/
def bootClasses : List SootClass := f.applicationClasses.filter fun cls => startsWith cls.name "com.android" && f.isConcrete cls

def addServiceSites : List CallSite := (bootClasses f).flatMap (callSites f (addsService f))

/-- The text of the first argument. -/
def CallSite.serviceName (site : CallSite) : Option String := site.expr.args[0]?.map immediateText

/-- The class that the solver comes to for a value within so many steps, the first
one other than `IBinder`. -/
def solvedClass (mtd : SootMethod) : ℕ → Value → Except ResolutionFailed (Option SootClass)
  | 0, _ => .ok none
  | lev + 1, v =>
    match firstOffer f mtd v with
    | .error problem => .error problem
    | .ok none => .ok none
    | .ok (some found) => if found.cls.name = kIBinderCls then solvedClass mtd lev found.assign else .ok (some found.cls)

/-- The class of the second argument. -/
def CallSite.solved (site : CallSite) : Except ResolutionFailed (Option SootClass) :=
  match site.expr.args[1]? with
  | some binder => solvedClass f site.mtd 3 (.immediate binder)
  | none => .ok none

/-- The entry of a service that is implemented by the class. -/
def CallSite.service (site : CallSite) (implClass : SootClass) : ServiceApiClass :=
  { implClass := some implClass, serviceName := site.serviceName }

/-- The entry that an added service leaves, one of a placeholder when no class was
found. -/
def CallSite.added (site : CallSite) : Option SootClass → ServiceApiClass
  | some implClass => site.service implClass
  | none => { helperClass := some OBJECT, serviceName := site.serviceName }

/-- Every invoke of every body resolves to a method. -/
def InvokesResolve : Prop := ∀ mtd, ∀ expr ∈ f.invokes mtd, ∃ called, f.resolve expr.methodRef = .ok called

variable {f} {p : Platform}

/-! ## Small platforms

A boot class that is a system service as well, with one body. Everything resolves
but the calls to the log, which are static while its methods are not. -/

def bootMethod : SootMethod :=
  { declaringClass := ⟨"com.android.server.Boot"⟩, name := "start", subSignature := "start" }

def kLogCls : SootClass := ⟨"android.util.TimingsTraceLog"⟩

def boot (start : List Stmt) : Framework :=
  let program : Program := { sampleProgram fun _ => start with
    methods := fun cls => if cls = bootMethod.declaringClass then [bootMethod] else []
    resolve := fun ref =>
      if ref.declaringClass = kLogCls then .error ⟨ref⟩ else (sampleProgram fun _ => start).resolve ref }
  { sampleFramework program with
    applicationClasses := [bootMethod.declaringClass]
    getSubclassesOf := fun _ => [bootMethod.declaringClass] }

def isIdentity : Stmt → Bool
  | .identity _ _ => true
  | _ => false

def bootPlatform (start : List Stmt) (plain : ∀ u ∈ start, isIdentity u = false)
    (two : ∀ expr ∈ start.filterMap Stmt.invokeExpr?, 2 ≤ expr.args.length) : Platform where
  toFramework := boot start
  methods_distinct cls := by
    change (if cls = bootMethod.declaringClass then [bootMethod] else []).Nodup
    split <;> simp
  identity_reference _ _ _ inside := Bool.noConfusion (plain _ inside)
  added_arguments _ expr inside _ := two expr inside
  published_arguments _ expr inside _ := two expr inside

/-- A body that makes services and registers each of them by its name. -/
def registering (sootClass name : String) (services : List String) : List Stmt :=
  services.zipIdx.flatMap fun (service, number) =>
    [.assign (.immediate (.loc ⟨"service", number⟩)) (.newExpr ⟨service⟩),
      invocation .static sootClass name [.constant service, .loc ⟨"service", number⟩]]

/-- A line for the log, by a static call of an instance method. -/
def logging : Stmt :=
  .invoke ⟨.static, ⟨kLogCls, "logDuration", [], .other "void", "logDuration"⟩, [.constant "Boot", .constant "0"]⟩

theorem boot_resolves {start : List Stmt}
    (silent : ∀ expr ∈ start.filterMap Stmt.invokeExpr?, expr.methodRef.declaringClass ≠ kLogCls) :
    InvokesResolve (boot start) :=
  fun _ expr inside => ⟨_, if_neg (silent expr inside)⟩

def adding : Platform :=
  bootPlatform (registering kServiceImplAddClsName kServiceImplAddMtdName ["Power", "Battery"]) (by decide) (by decide)

/-! ## The class of an argument -/

theorem takeImplClass_search (mtd : SootMethod) (lev : ℕ) (v : Value) :
    searchValue (f := f) takeImplClass mtd lev v none =
      (solvedClass f mtd lev v).map fun cls => ((), cls.map fun implClass => { implClass := some implClass }) := by
  induction lev generalizing v with
  | zero => rfl
  | succ lev ih =>
    rw [search_round, solvedClass]
    cases firstOffer f mtd v with
    | error problem => rfl
    | ok found =>
      cases found with
      | none => rfl
      | some found =>
        simp only [takeImplClass]
        split
        · exact ih _
        · rfl

/-- What the search in a method gives is the class that the solver comes to. -/
theorem resolveServiceImplInMethod_eq (v : Value) (mtd : SootMethod) : resolveServiceImplInMethod f v mtd =
    ((solvedClass f mtd 3 v).map (Option.map fun implClass => { implClass := some implClass })).mapError .resolutionFailed := by
  simp only [resolveServiceImplInMethod, StateT.run, startToSearchValue_eq, takeImplClass_search]
  cases solvedClass f mtd 3 v <;> rfl

theorem definedClass_total (curCls : SootClass) (assign : Value)
    (resolves : ∀ expr, assign = .invoke expr → ∃ called, f.resolve expr.methodRef = .ok called) : ∃ cls, definedClass f curCls assign = .ok cls := by
  cases assign with
  | invoke expr =>
    obtain ⟨called, resolved⟩ := resolves expr rfl
    simp only [definedClass, resolved, bind, Except.bind, pure, Except.pure]
    split <;> exact ⟨_, rfl⟩
  | _ => exact ⟨_, rfl⟩

/-- A body whose invokes resolve gives the solver no reason to fail. -/
theorem solvedClass_total (p : Platform)
    (resolves : ∀ expr ∈ p.invokes mtd, ∃ called, p.resolve expr.methodRef = .ok called) (lev : ℕ) (v : Value) :
    ∃ outcome, solvedClass p.toFramework mtd lev v = .ok outcome := by
  have right {u : Stmt} {leftOp : Value} {expr : InvokeExpr} (inside : u ∈ p.units mtd)
      (definition : definitionOf u = some (leftOp, .invoke expr)) : ∃ called, p.resolve expr.methodRef = .ok called := by
    cases u with
    | assign left right =>
      cases definition
      exact resolves expr (List.mem_filterMap.mpr ⟨_, inside, rfl⟩)
    | identity left right =>
      cases definition
      exact absurd inside (p.identity_reference mtd _ expr)
    | _ => cases definition
  have offered (v : Value) : ∃ found, firstOffer p.toFramework mtd v = .ok found := by
    refine plain_total _ fun u inside => ?_
    unfold offer
    split
    · rename_i leftOp assign definition
      split
      · obtain ⟨cls, known⟩ := definedClass_total (f := p.toFramework) mtd.declaringClass assign
          fun expr same => right inside (same ▸ definition)
        exact ⟨_, by rw [known]; rfl⟩
      · exact ⟨_, rfl⟩
    · exact ⟨_, rfl⟩
  induction lev generalizing v with
  | zero => exact ⟨_, rfl⟩
  | succ lev ih =>
    obtain ⟨found, first⟩ := offered v
    rw [solvedClass, first]
    cases found with
    | none => exact ⟨_, rfl⟩
    | some found =>
      simp only
      split
      · exact ih _
      · exact ⟨_, rfl⟩

theorem solved_total (p : Platform) (site : CallSite)
    (resolves : ∀ expr ∈ p.invokes site.mtd, ∃ called, p.resolve expr.methodRef = .ok called) :
    ∃ outcome, site.solved p.toFramework = .ok outcome := by
  unfold CallSite.solved
  split
  · exact solvedClass_total p resolves 3 _
  · exact ⟨_, rfl⟩

/-- What the searches read off a site with both arguments. -/
theorem arguments_read (site : CallSite) (two : 2 ≤ site.expr.args.length) (solved : site.solved f = .ok outcome) :
    ∃ name binder, argument site.expr 0 = .ok name ∧ argument site.expr 1 = .ok binder ∧
      site.serviceName = some (immediateText name) ∧ resolveServiceImplInMethod f (.immediate binder) site.mtd =
        .ok (outcome.map fun implClass => { implClass := some implClass }) := by
  obtain ⟨name, binder, rest, args⟩ : ∃ name binder rest, site.expr.args = name :: binder :: rest := by
    match args : site.expr.args, two with
    | name :: binder :: rest, _ => exact ⟨name, binder, rest, rfl⟩
  have known : solvedClass f site.mtd 3 (.immediate binder) = .ok outcome := by
    simpa [CallSite.solved, args] using solved
  refine ⟨name, binder, ?_, ?_, ?_, ?_⟩
  · simp [argument, args, pure, Except.pure]
  · simp [argument, args, pure, Except.pure]
  · simp [CallSite.serviceName, args]
  · rw [resolveServiceImplInMethod_eq, known]
    rfl

/-! ## Added services -/

/-- The entry that a call leaves when its class is known or known to be missing. -/
def CallSite.entry (f : Framework) (site : CallSite) : ServiceApiClass :=
  site.added (((site.solved f).toOption).getD none)

/-- What a call in a method appends. -/
def addedBy (f : Framework) (mtd : SootMethod) (expr : InvokeExpr) : List ServiceApiClass :=
  if addsService f expr then [CallSite.entry f ⟨mtd, expr⟩] else []

theorem resolveAddService_ok (resolved : f.resolve expr.methodRef = .ok called)
    (arguments : addsService f expr = true → 2 ≤ expr.args.length)
    (solved : addsService f expr = true → CallSite.solved f ⟨mtd, expr⟩ = .ok outcome) (implList : List ServiceApiClass) :
    resolveAddService f mtd expr implList = .ok ((), implList ++ addedBy f mtd expr) := by
  have adds : addsService f expr = true ↔
      called.name = kServiceImplAddMtdName ∧ called.declaringClass.name = kServiceImplAddClsName := by
    simp [invokesMethod, resolved]
  have looked : getMethod f expr = .ok called := by
    rw [getMethod, resolved]
    rfl
  by_cases here : addsService f expr = true
  · obtain ⟨name, binder, first, second, named, search⟩ := arguments_read ⟨mtd, expr⟩ (arguments here) (solved here)
    unfold resolveAddService
    refine state_bind_ok.mpr ⟨called, implList, lift_ok.mpr ⟨looked, rfl⟩, ?_⟩
    rw [if_pos (adds.mp here)]
    refine state_bind_ok.mpr ⟨name, implList, lift_ok.mpr ⟨first, rfl⟩, ?_⟩
    refine state_bind_ok.mpr ⟨binder, implList, lift_ok.mpr ⟨second, rfl⟩, ?_⟩
    refine state_bind_ok.mpr ⟨_, implList, lift_ok.mpr ⟨search, rfl⟩, ?_⟩
    rw [addedBy, if_pos here, CallSite.entry, solved here]
    cases outcome with
    | none =>
      simp only [Except.toOption, Option.getD_some, CallSite.added, named]
      rfl
    | some implClass =>
      simp only [Except.toOption, Option.getD_some, CallSite.added, CallSite.service, named]
      rfl
  · unfold resolveAddService
    refine state_bind_ok.mpr ⟨called, implList, lift_ok.mpr ⟨looked, rfl⟩, ?_⟩
    rw [if_neg (mt adds.mpr here), addedBy, if_neg here, List.append_nil]
    rfl

/-- In the bodies that add a service every invoke resolves. -/
def AddingBodiesResolve (p : Platform) : Prop :=
  ∀ cls ∈ bootClasses p.toFramework, ∀ mtd ∈ p.methods cls,
    (p.invokes mtd).any (addsService p.toFramework) = true →
    ∀ expr ∈ p.invokes mtd, ∃ called, p.resolve expr.methodRef = .ok called

/-- What the calls of a method append. -/
def addedIn (f : Framework) (mtd : SootMethod) : List ServiceApiClass := (f.invokes mtd).flatMap (addedBy f mtd)

/-- These are the entries of its sites. -/
theorem addedIn_sites (mtd : SootMethod) :
    addedIn f mtd = (((f.invokes mtd).filter (addsService f)).map (CallSite.mk mtd)).map (CallSite.entry f) := by
  unfold addedIn
  induction f.invokes mtd with
  | nil => rfl
  | cons expr invokes ih =>
    rw [List.flatMap_cons, ih, addedBy, List.filter_cons]
    split <;> rfl

theorem flatMap_filter_silent {keep : α → Bool} {out : α → List β} (items : List α)
    (silent : ∀ item, keep item = false → out item = []) : (items.filter keep).flatMap out = items.flatMap out := by
  induction items with
  | nil => rfl
  | cons item items ih =>
    rw [List.filter_cons, List.flatMap_cons]
    cases kept : keep item with
    | true => rw [if_pos rfl, List.flatMap_cons, ih]
    | false => rw [if_neg Bool.false_ne_true, ih, silent item kept, List.nil_append]

theorem addedIn_silent (quiet : (f.invokes mtd).any (addsService f) = false) : addedIn f mtd = [] := by
  have none : (f.invokes mtd).filter (addsService f) = [] :=
    List.filter_eq_nil_iff.mpr (List.any_eq_false.mp quiet)
  rw [addedIn_sites, none]
  rfl

theorem methods_filtered (p : Platform) (cls : SootClass) :
    (filterMethodContainCalls p.toFramework cls kServiceImplAddMtdName kServiceImplAddClsName).Perm
      ((p.methods cls).filter fun mtd => (p.invokes mtd).any (addsService p.toFramework)) := by
  unfold filterMethodContainCalls
  rw [KeyedSets.addAll_of_nodup ((p.methods_distinct cls).filter _)]
  exact p.hashOrder.arrange_perm _

/-- What the calls of a class append, method after method as the set has them. -/
def addedFor (f : Framework) (cls : SootClass) : List ServiceApiClass :=
  (filterMethodContainCalls f cls kServiceImplAddMtdName kServiceImplAddClsName).flatMap (addedIn f)

theorem addedFor_sites (p : Platform) (cls : SootClass) :
    (addedFor p.toFramework cls).Perm ((p.methods cls).flatMap (addedIn p.toFramework)) := by
  rw [← flatMap_filter_silent (p.methods cls) fun mtd => addedIn_silent]
  exact (methods_filtered p cls).flatMap_right _

/-- One class runs to its end when the bodies that add a service resolve. -/
theorem resolveServiceImplRegister_ok
    (bodies : ∀ mtd ∈ p.methods cls, (p.invokes mtd).any (addsService p.toFramework) = true →
      ∀ expr ∈ p.invokes mtd, ∃ called, p.resolve expr.methodRef = .ok called) (implList : List ServiceApiClass) :
    resolveServiceImplRegister p.toFramework cls implList = .ok ((), implList ++ addedFor p.toFramework cls) := by
  refine each_appends _ _ (fun mtd filtered found => ?_) implList
  obtain ⟨declared, adds⟩ := List.mem_filter.mp ((methods_filtered p cls).mem_iff.mp filtered)
  have resolves := bodies mtd declared adds
  refine each_appends _ _ (fun expr inside found => ?_) found
  obtain ⟨called, resolved⟩ := resolves expr inside
  obtain ⟨outcome, solved⟩ := solved_total p ⟨mtd, expr⟩ resolves
  exact resolveAddService_ok resolved (p.added_arguments mtd expr inside) (fun _ => solved) found

theorem findAddServiceList_eq (f : Framework) : findAddServiceList f =
    (bootClasses f).filter fun cls => checkClsContainsMethodCall f cls kServiceImplAddMtdName kServiceImplAddClsName := by
  rw [findAddServiceList, bootClasses, List.filter_filter]
  exact List.filter_congr fun cls _ => Bool.and_comm _ _

/-- The search runs to its end, and leaves the entries of the sites. -/
theorem searchServiceImplRegister_ok (bodies : AddingBodiesResolve p) :
    ∃ implList, searchServiceImplRegister p.toFramework [] = .ok ((), implList) ∧
      implList.Perm ((addServiceSites p.toFramework).map (CallSite.entry p.toFramework)) := by
  have ran : searchServiceImplRegister p.toFramework [] =
      .ok ((), [] ++ (findAddServiceList p.toFramework).flatMap (addedFor p.toFramework)) :=
    each_appends _ _ (fun cls listed found => resolveServiceImplRegister_ok
      (bodies cls (List.mem_filter.mp (findAddServiceList_eq _ ▸ listed)).1) found) []
  refine ⟨_, ran, ?_⟩
  have silent (cls : SootClass)
      (quiet : checkClsContainsMethodCall p.toFramework cls kServiceImplAddMtdName kServiceImplAddClsName = false) :
      (p.methods cls).flatMap (addedIn p.toFramework) = [] :=
    List.flatMap_eq_nil_iff.mpr fun mtd declared =>
      addedIn_silent (Bool.eq_false_iff.mpr (List.any_eq_false.mp quiet mtd declared))
  have sites : (addServiceSites p.toFramework).map (CallSite.entry p.toFramework) =
      (bootClasses p.toFramework).flatMap fun cls => (p.methods cls).flatMap (addedIn p.toFramework) := by
    rw [show addedIn p.toFramework = _ from funext addedIn_sites]
    simp only [addServiceSites, callSites, List.map_flatMap]
  rw [List.nil_append, sites, ← flatMap_filter_silent _ silent, ← findAddServiceList_eq]
  exact List.Perm.flatMap_left _ fun cls _ => addedFor_sites p cls

/-- The entry of a site whose class the solver finds. -/
def CallSite.implementing (f : Framework) (site : CallSite) : Option ServiceApiClass :=
  match site.solved f with
  | .ok (some implClass) => some (site.service implClass)
  | _ => none

theorem entries_implementing (sites : List CallSite) :
    (sites.map (CallSite.entry f)).filter (·.implClass.isSome) = sites.filterMap (CallSite.implementing f) := by
  induction sites with
  | nil => rfl
  | cons site sites ih =>
    rw [List.map_cons, List.filter_cons, ih, List.filterMap_cons, CallSite.entry, CallSite.implementing]
    cases site.solved f with
    | error problem => rfl
    | ok outcome => cases outcome <;> rfl

/-- Where every invoke resolves, the entries that are kept are those of the sites
whose class is found, one for each site. -/
theorem added_services_exact (p : Platform) (resolves : InvokesResolve p.toFramework) :
    ∃ implList, searchServiceImplRegister p.toFramework [] = .ok ((), implList) ∧
      (implList.filter (·.implClass.isSome)).Perm
        ((addServiceSites p.toFramework).filterMap (CallSite.implementing p.toFramework)) := by
  obtain ⟨implList, ran, entries⟩ := searchServiceImplRegister_ok (p := p) fun _ _ mtd _ _ => resolves mtd
  exact ⟨implList, ran, entries_implementing (addServiceSites p.toFramework) ▸ entries.filter _⟩

theorem added_services_exact_adding : ∃ implList,
    searchServiceImplRegister adding.toFramework [] = .ok ((), implList) ∧
    (implList.filter (·.implClass.isSome)).Perm
      [{ implClass := some ⟨"Power"⟩, serviceName := some "Power" },
        { implClass := some ⟨"Battery"⟩, serviceName := some "Battery" }] := by
  have entries : (addServiceSites adding.toFramework).filterMap (CallSite.implementing adding.toFramework) =
      [{ implClass := some ⟨"Power"⟩, serviceName := some "Power" },
        { implClass := some ⟨"Battery"⟩, serviceName := some "Battery" }] := by
    decide +kernel
  exact entries ▸ added_services_exact adding (boot_resolves (by decide))

/-! ## Invokes that do not resolve -/

/-- The entry of a site for which the solver meets no failing invoke. -/
def CallSite.unhindered (f : Framework) (site : CallSite) : Option ServiceApiClass :=
  match site.solved f with
  | .ok outcome => some (site.added outcome)
  | .error _ => none

/-- Invokes that do not resolve cost no entry but those that need them. -/
def FailuresContained (p : Platform) : Prop :=
  ∃ implList, searchServiceImplRegister p.toFramework [] = .ok ((), implList) ∧
    ((addServiceSites p.toFramework).filterMap (CallSite.unhindered p.toFramework)).Subperm implList

theorem entries_unhindered (sites : List CallSite) :
    (sites.filterMap (CallSite.unhindered f)).Sublist (sites.map (CallSite.entry f)) := by
  induction sites with
  | nil => exact .slnil
  | cons site sites ih =>
    rw [List.filterMap_cons, List.map_cons, CallSite.unhindered, CallSite.entry]
    cases site.solved f with
    | error problem => exact ih.cons _
    | ok outcome => exact ih.cons_cons _

theorem resolved_of_ran (ran : resolveAddService f mtd expr implList = .ok reply) :
    ∃ called, f.resolve expr.methodRef = .ok called := by
  unfold resolveAddService at ran
  obtain ⟨called, _, looked, _⟩ := state_bind_ok.mp ran
  exact ⟨called, mapError_ok.mp (lift_ok.mp looked).1⟩

/-- Failures are contained exactly when none stands in a body that adds a
service. -/
theorem failures_contained_iff (p : Platform) : FailuresContained p ↔ AddingBodiesResolve p := by
  constructor
  · rintro ⟨implList, ran, _⟩ cls boot mtd declared adds expr inside
    have listed : cls ∈ findAddServiceList p.toFramework := by
      rw [findAddServiceList_eq]
      exact List.mem_filter.mpr ⟨boot, List.any_eq_true.mpr ⟨mtd, declared, adds⟩⟩
    have filtered := (methods_filtered p cls).mem_iff.mpr (List.mem_filter.mpr ⟨declared, adds⟩)
    obtain ⟨_, _, ofClass⟩ := each_ran ran listed
    obtain ⟨_, _, ofMethod⟩ := each_ran ofClass filtered
    obtain ⟨_, _, ofInvoke⟩ := each_ran ofMethod inside
    exact resolved_of_ran ofInvoke
  · intro bodies
    obtain ⟨implList, ran, entries⟩ := searchServiceImplRegister_ok bodies
    exact ⟨implList, ran, (entries_unhindered _).subperm.trans entries.symm.subperm⟩

/-- A boot class that writes to the log after it has added its services. -/
def talking : Platform :=
  bootPlatform (registering kServiceImplAddClsName kServiceImplAddMtdName ["Power", "Battery"] ++ [logging])
    (by decide) (by decide)

theorem talking_aborts : ¬ FailuresContained talking := by
  rintro ⟨implList, ran, _⟩
  have stops : (searchServiceImplRegister talking.toFramework []).toOption.isSome = false := by decide +kernel
  rw [ran] at stops
  cases stops

/-! ## Published services -/

/-- The calls of a class that publish a service. -/
abbrev publishSites (f : Framework) (cls : SootClass) : List CallSite := callSites f (publishes f) cls

/-- The system services. -/
def systemServices (f : Framework) : List SootClass :=
  (getSubClassList f kSystemServiceBaseClass).filter fun cls => !f.isInterface cls

/-- Every site of a system service whose class the solver finds leaves its entry. -/
def AllPublished (p : Platform) : Prop :=
  ∃ added, (∀ implList, searchServiceImplPublish p.toFramework implList = .ok ((), implList ++ added)) ∧
    ∀ cls ∈ systemServices p.toFramework, ∀ site ∈ publishSites p.toFramework cls,
      ∀ implClass, site.solved p.toFramework = .ok (some implClass) → site.service implClass ∈ added

/-- What one class leaves: the entry of its first site, with or without a class. -/
def publishedBy (f : Framework) (cls : SootClass) : Option ServiceApiClass :=
  if f.isInterface cls then none
  else (publishSites f cls).head?.map fun site =>
    { implClass := ((site.solved f).toOption).getD none, serviceName := site.serviceName }

/-- Where every invoke resolves, the search for a call finds the first site. -/
theorem findPublish_ok (resolves : InvokesResolve f) (cls : SootClass) :
    findPublish f cls = .ok ((publishSites f cls).head?.map fun site => (site.expr, site.mtd)) := by
  have round (mtd : SootMethod) (expr : InvokeExpr) (inside : expr ∈ f.invokes mtd) :
      (do
        let called ← getMethod f expr
        if called.name = kServiceImplPublishFunc then pure (some (expr, mtd)) else pure none) =
      (Except.ok (if publishes f expr then some (expr, mtd) else none) : Extraction _) := by
    obtain ⟨called, resolved⟩ := resolves mtd expr inside
    by_cases named : called.name = kServiceImplPublishFunc <;>
      simp [getMethod, publishes, resolved, named, Except.mapError, bind, Except.bind, pure, Except.pure]
  have first (mtd : SootMethod) (invokes : List InvokeExpr) :
      invokes.findSome? (fun expr => if publishes f expr then some (expr, mtd) else none) =
        ((invokes.filter (publishes f)).map (CallSite.mk mtd)).head?.map fun site => (site.expr, site.mtd) := by
    induction invokes with
    | nil => rfl
    | cons expr invokes ih =>
      rw [List.findSome?_cons, List.filter_cons]
      cases publishes f expr with
      | true => rfl
      | false => exact ih
  rw [findPublish, plain_answers _ fun mtd _ => plain_answers _ (round mtd), publishSites, callSites, List.head?_flatMap,
    List.map_findSome?]
  simp only [first, Function.comp_def]

theorem extractServicePublic_ok (resolves : InvokesResolve p.toFramework) (cls : SootClass) :
    extractServicePublic p.toFramework cls = .ok (publishedBy p.toFramework cls) := by
  have found := findPublish_ok resolves cls
  unfold extractServicePublic publishedBy
  split
  · rfl
  cases first : (publishSites p.toFramework cls).head? with
  | none =>
    rw [first] at found
    exact bind_ok.mpr ⟨_, found, rfl⟩
  | some site =>
    rw [first] at found
    obtain ⟨mtd, _, called⟩ := List.mem_flatMap.mp (List.mem_of_head? first)
    obtain ⟨expr, calls, rfl⟩ := List.mem_map.mp called
    obtain ⟨inside, publishing⟩ := List.mem_filter.mp calls
    obtain ⟨outcome, solved⟩ := solved_total p ⟨mtd, expr⟩ (resolves mtd)
    obtain ⟨name, binder, read, second, named, search⟩ :=
      arguments_read ⟨mtd, expr⟩ (p.published_arguments mtd expr inside publishing) solved
    refine bind_ok.mpr ⟨_, found, bind_ok.mpr ⟨name, read, bind_ok.mpr ⟨binder, second, bind_ok.mpr ⟨_, search, ?_⟩⟩⟩⟩
    rw [Option.map_some, solved, named]
    cases outcome <;> rfl

/-- Where every invoke resolves, the search leaves what each class leaves. -/
theorem searchServiceImplPublish_ok (resolves : InvokesResolve p.toFramework) (implList : List ServiceApiClass) :
    searchServiceImplPublish p.toFramework implList = .ok ((), implList ++
      (getSubClassList p.toFramework kSystemServiceBaseClass).flatMap fun cls => (publishedBy p.toFramework cls).toList) := by
  refine each_appends _ _ (fun cls _ found => ?_) implList
  refine state_bind_ok.mpr ⟨_, found, lift_ok.mpr ⟨extractServicePublic_ok resolves cls, rfl⟩, ?_⟩
  cases publishedBy p.toFramework cls with
  | none =>
    rw [Option.toList_none, List.append_nil]
    rfl
  | some sc => rfl

/-- A class leaves the entry of a service when its first site has it. -/
theorem publishedBy_service (cls : SootClass) (site : CallSite) (implClass : SootClass) :
    publishedBy f cls = some (site.service implClass) ↔ f.isInterface cls = false ∧
      ∃ first, (publishSites f cls).head? = some first ∧ first.solved f = .ok (some implClass) ∧
        first.serviceName = site.serviceName := by
  unfold publishedBy
  split
  · rename_i interface
    simp [interface]
  · rename_i concrete
    rw [Option.map_eq_some_iff]
    have found (first : CallSite) :
        (first.solved f).toOption.getD none = some implClass ↔ first.solved f = .ok (some implClass) := by
      cases first.solved f <;> simp [Except.toOption]
    simp [concrete, CallSite.service, found]

/-- Where every invoke resolves, no service is lost exactly when every site whose
class is found says the same as the first site of some system service. -/
theorem all_published_iff (p : Platform) (resolves : InvokesResolve p.toFramework) :
    AllPublished p ↔ ∀ cls ∈ systemServices p.toFramework, ∀ site ∈ publishSites p.toFramework cls,
      ∀ implClass, site.solved p.toFramework = .ok (some implClass) →
        ∃ other ∈ systemServices p.toFramework, ∃ first, (publishSites p.toFramework other).head? = some first ∧
          first.solved p.toFramework = .ok (some implClass) ∧ first.serviceName = site.serviceName := by
  have ran := searchServiceImplPublish_ok resolves
  have left (site : CallSite) (implClass : SootClass) :
      site.service implClass ∈ (getSubClassList p.toFramework kSystemServiceBaseClass).flatMap
        (fun cls => (publishedBy p.toFramework cls).toList) ↔
      ∃ other ∈ systemServices p.toFramework, ∃ first, (publishSites p.toFramework other).head? = some first ∧
        first.solved p.toFramework = .ok (some implClass) ∧ first.serviceName = site.serviceName := by
    simp only [List.mem_flatMap, Option.mem_toList, publishedBy_service, systemServices, List.mem_filter,
      Bool.not_eq_true', and_assoc]
  constructor
  · rintro ⟨added, appends, covers⟩ cls service site publishing implClass solved
    have same := (appends []).symm.trans (ran [])
    simp only [List.nil_append, Except.ok.injEq, Prod.mk.injEq, true_and] at same
    exact (left site implClass).mp (same ▸ covers cls service site publishing implClass solved)
  · intro covers
    refine ⟨_, ran, fun cls service site publishing implClass solved => ?_⟩
    exact (left site implClass).mpr (covers cls service site publishing implClass solved)

def publishing : Platform :=
  bootPlatform (registering kSystemServiceBaseClass.name kServiceImplPublishFunc ["Power"]) (by decide) (by decide)

theorem all_published_iff_publishing : AllPublished publishing := by
  have services : systemServices publishing.toFramework = [bootMethod.declaringClass] := rfl
  obtain ⟨only, sites⟩ : ∃ site, publishSites publishing.toFramework bootMethod.declaringClass = [site] := ⟨_, rfl⟩
  refine (all_published_iff publishing (boot_resolves (by decide))).mpr ?_
  intro cls service site publishes implClass solved
  rw [services, List.mem_singleton] at service
  subst service
  rw [sites, List.mem_singleton] at publishes
  subst publishes
  exact ⟨_, services ▸ List.mem_singleton_self _, site, by rw [sites]; rfl, solved, rfl⟩

/-- A boot class that publishes two services. -/
def publishingTwo : Platform :=
  bootPlatform (registering kSystemServiceBaseClass.name kServiceImplPublishFunc ["Power", "Battery"])
    (by decide) (by decide)

theorem publishingTwo_loses : ¬ AllPublished publishingTwo := by
  rintro ⟨added, appends, covers⟩
  have ran : searchServiceImplPublish publishingTwo.toFramework [] =
      .ok ((), [{ implClass := some ⟨"Power"⟩, serviceName := some "Power" }]) := by
    decide +kernel
  obtain ⟨site, publishes, solved⟩ : ∃ site ∈ publishSites publishingTwo.toFramework bootMethod.declaringClass,
      site.solved publishingTwo.toFramework = .ok (some ⟨"Battery"⟩) := by
    decide +kernel
  have lost := covers _ List.mem_cons_self site publishes _ solved
  have same := (appends []).symm.trans ran
  simp only [List.nil_append, Except.ok.injEq, Prod.mk.injEq, true_and] at same
  rw [same, List.mem_singleton] at lost
  have other := congrArg ServiceApiClass.implClass lost
  revert other
  simp [CallSite.service]

end JgreAnalysis.ServiceRegistrations
