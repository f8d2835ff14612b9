import JgreAnalysis.AnalysisHelperApi
import JgreAnalysis.BinderHierarchy

/-! What a helper's match says about the service behind it. The search compares
sub-signatures and no classes: of the calls below the helper it takes the first
that names any exit point, and of the exit points the first that the call names.
Their services may be different ones. -/
namespace JgreAnalysis.HelperMatches
open SootModel FrameworkScene BinderHierarchy AnalysisHelperApi
open BoundedReach ExhaustiveSearch
open Relation

section
variable (f : Framework)

/-- The service of the method has the interface above it. -/
def ImplementedBy (inf : SootClass) (m : SootMethod) : Prop := TransGen (DirectSupertype f) m.declaringClass inf

/-- An interface call within the bound of the search. -/
def CallsWithin (e : SootMethod) (called : SootMethodRef) : Prop :=
  ∃ mtd, ReachedWithin (CallEdge f.toProgram) 3 e mtd ∧ ∃ u ∈ f.units mtd, ∃ inv, u.invokeExpr? = some inv ∧
    inv.isInterface = true ∧ inv.methodRef = called

end

section
variable (p : Program) (exitPoints : List SootMethod)

/-- The calls on binder interfaces below a method, down to the bound and in the
order of the statements, with every invoke that is not found. -/
def binderCalls : ℕ → SootMethod → List (Except ResolutionFailed SootMethodRef)
  | 0, _ => []
  | lev + 1, mtd => (p.units mtd).flatMap fun u =>
    match u.invokeExpr? with
    | some inv =>
      if inv.isInterface then
        if BinderClasses.isIInterface p inv.methodRef.declaringClass then [.ok inv.methodRef] else []
      else match p.resolve inv.methodRef with
        | .ok callee => binderCalls lev callee
        | .error problem => [.error problem]
    | none => []

/-- The exit point that a call names, if there is one. -/
def exitPointsOf : Except ResolutionFailed SootMethodRef → List (Except ResolutionFailed SootMethod)
  | .ok called => (matchingExitPoint p exitPoints called).toList.map .ok
  | .error problem => [.error problem]

/-- Every exit point called, and every invoke that is not found, in order. -/
def ipcCalls (lev : ℕ) (mtd : SootMethod) : List (Except ResolutionFailed SootMethod) :=
  (binderCalls p lev mtd).flatMap (exitPointsOf p exitPoints)

/-- The exit point is the first that the call names, as the set iterates. -/
def FirstNamed (called : SootMethodRef) (m : SootMethod) : Prop :=
  ∃ others rest, p.hashOrder.arrange exitPoints = others ++ m :: rest ∧ m.subSignature = called.subSignature ∧
    ∀ other ∈ others, other.subSignature ≠ called.subSignature

end

section
variable {p : Program} {exitPoints : List SootMethod}

theorem outcomes_eq (p : Program) (exitPoints : List SootMethod) (lev : ℕ) (mtd : SootMethod) :
    outcomes (moves p exitPoints) lev mtd = ipcCalls p exitPoints lev mtd := by
  induction lev generalizing mtd with
  | zero => rfl
  | succ lev ih =>
    rw [outcomes, ipcCalls, binderCalls, moves, List.flatMap_assoc, List.flatMap_assoc]
    refine List.flatMap_congr fun u _ => ?_
    unfold movesOf
    cases u.invokeExpr? with
    | none => rfl
    | some inv =>
      dsimp only
      cases inv.isInterface with
      | false =>
        simp only [if_true, Bool.false_eq_true, if_false, List.flatMap_singleton]
        cases p.resolve inv.methodRef with
        | ok callee => exact ih callee
        | error problem => rfl
      | true =>
        simp only [Bool.true_eq_false, if_false, if_true]
        split
        · simp only [List.flatMap_singleton, exitPointsOf]
          cases matchingExitPoint p exitPoints inv.methodRef <;> rfl
        · rfl

theorem matchingExitPoint_eq_some (called : SootMethodRef) (m : SootMethod) :
    matchingExitPoint p exitPoints called = some m ↔ FirstNamed p exitPoints called m := by
  simp only [matchingExitPoint, FirstNamed, List.find?_eq_some_iff_append, beq_iff_eq, Bool.not_eq_true', beq_eq_false_iff_ne,
    ne_eq]
  constructor
  · rintro ⟨same, others, rest, split, different⟩
    exact ⟨others, rest, split, same, different⟩
  · rintro ⟨others, rest, split, same, different⟩
    exact ⟨same, others, rest, split, different⟩

theorem matchingExitPoint_eq_none (called : SootMethodRef) :
    matchingExitPoint p exitPoints called = none ↔ ∀ mtd ∈ exitPoints, mtd.subSignature ≠ called.subSignature := by
  simp [matchingExitPoint, HashOrder.mem_arrange]

/-- A listing that begins with an exit point has it from the first call that names
any. -/
theorem first_named (calls : List (Except ResolutionFailed SootMethodRef))
    (begins : firstOutcome (calls.flatMap (exitPointsOf p exitPoints)) = .ok (some m)) :
    ∃ before called after, calls = before ++ .ok called :: after ∧ FirstNamed p exitPoints called m ∧
      ∀ earlier ∈ before, ∃ other, earlier = .ok other ∧ ∀ mtd ∈ exitPoints, mtd.subSignature ≠ other.subSignature := by
  induction calls with
  | nil => cases begins
  | cons call calls ih =>
    rw [List.flatMap_cons] at begins
    cases call with
    | error problem => cases begins
    | ok called =>
      cases matched : matchingExitPoint p exitPoints called with
      | some found =>
        rw [exitPointsOf, matched] at begins
        cases begins
        exact ⟨[], called, calls, rfl, (matchingExitPoint_eq_some called m).mp matched, by simp⟩
      | none =>
        rw [exitPointsOf, matched] at begins
        obtain ⟨before, first, after, rfl, named, quiet⟩ := ih begins
        refine ⟨.ok called :: before, first, after, rfl, named, List.forall_mem_cons.mpr ⟨?_, quiet⟩⟩
        exact ⟨called, rfl, (matchingExitPoint_eq_none called).mp matched⟩

/-- A call of the listing is an interface call within the bound, on an interface
that directly extends `IInterface`. -/
theorem mem_binderCalls (lev : ℕ) (mtd : SootMethod) (listed : .ok called ∈ binderCalls p lev mtd) :
    BinderClasses.isIInterface p called.declaringClass = true ∧ ∃ caller, ReachedWithin (CallEdge p) lev mtd caller ∧
      ∃ u ∈ p.units caller, ∃ inv, u.invokeExpr? = some inv ∧ inv.isInterface = true ∧ inv.methodRef = called := by
  induction lev generalizing mtd with
  | zero => cases listed
  | succ lev ih =>
    obtain ⟨u, inside, offered⟩ := List.mem_flatMap.mp listed
    cases invoked : u.invokeExpr? with
    | none => simp [invoked] at offered
    | some inv =>
      rw [invoked] at offered
      dsimp only at offered
      cases interface : inv.isInterface with
      | true =>
        rw [interface, if_pos rfl] at offered
        split at offered
        · rename_i binder
          cases List.mem_singleton.mp offered
          exact ⟨binder, mtd, ⟨0, Nat.succ_pos lev, .here mtd⟩, u, inside, inv, invoked, interface, rfl⟩
        · cases offered
      | false =>
        rw [interface, if_neg Bool.false_ne_true] at offered
        cases resolved : p.resolve inv.methodRef with
        | error problem => simp [resolved] at offered
        | ok callee =>
          rw [resolved] at offered
          obtain ⟨binder, caller, ⟨n, few, steps⟩, call⟩ := ih callee offered
          exact ⟨binder, caller, ⟨n + 1, Nat.succ_lt_succ few, .step ⟨u, inside, inv, invoked, interface, resolved⟩ steps⟩, call⟩

end

section
variable {f : Framework}

/-- A method that the search returns is the first exit point that its call names,
and the call is the first below the helper that names any. It is within the bound,
on an interface that directly extends `IInterface`. -/
theorem returned_matches (ran : findVulIPCCall f.toProgram exitPoints e = .ok (some m)) :
    m ∈ exitPoints ∧ ∃ before called after, binderCalls f.toProgram 3 e = before ++ .ok called :: after ∧
      CallsWithin f e called ∧ IInterface ∈ f.interfaces called.declaringClass ∧
      FirstNamed f.toProgram exitPoints called m ∧
      ∀ earlier ∈ before, ∃ other, earlier = .ok other ∧ ∀ mtd ∈ exitPoints, mtd.subSignature ≠ other.subSignature := by
  rw [findVulIPCCall, searchCalled_eq_dive, dive_first, outcomes_eq] at ran
  obtain ⟨before, called, after, split, named, quiet⟩ := first_named _ ran
  obtain ⟨binder, within⟩ := mem_binderCalls 3 e (split ▸ List.mem_append_right before List.mem_cons_self)
  obtain ⟨inf, listed, spelled⟩ := (isIInterface_iff _).mp binder
  have extends_ : inf = IInterface := by
    cases inf
    simpa [IInterface] using spelled
  obtain ⟨others, rest, iterated, _⟩ := id named
  have member : m ∈ exitPoints := f.hashOrder.mem_arrange.mp (by simp [iterated])
  exact ⟨member, before, called, after, split, within, extends_ ▸ listed, named, quiet⟩

end

/-- Two services whose interfaces have a method of the same sub-signature. The
helper calls the first one. -/
def firstService : SootClass := ⟨"IFirst"⟩

def firstRegister : SootMethod :=
  { declaringClass := ⟨"FirstService"⟩, name := "register", subSignature := "register" }

def secondRegister : SootMethod :=
  { declaringClass := ⟨"SecondService"⟩, name := "register", subSignature := "register" }

def sameShaped : Framework :=
  sampleFramework { sampleProgram fun name =>
      if name = "listen" then [invocation (.interface ⟨"service", 0⟩) "IFirst" "register" []] else [] with
    interfaces := fun sc =>
      if sc.name = "FirstService" then [⟨"IFirst"⟩]
      else if sc.name = "SecondService" then [⟨"ISecond"⟩]
      else if sc.name = "IFirst" ∨ sc.name = "ISecond" then [IInterface]
      else [] }

/-- Where the set has the first service's method first, it is returned. -/
theorem returned_matches_sameShaped :
    findVulIPCCall sameShaped.toProgram [firstRegister, secondRegister] (sampleMethod "listen") = .ok (some firstRegister) ∧
    ImplementedBy sameShaped firstService firstRegister ∧
    firstRegister ∈ [firstRegister, secondRegister] ∧
    ∃ before called after, binderCalls sameShaped.toProgram 3 (sampleMethod "listen") = before ++ .ok called :: after ∧
      CallsWithin sameShaped (sampleMethod "listen") called ∧ IInterface ∈ sameShaped.interfaces called.declaringClass ∧
      FirstNamed sameShaped.toProgram [firstRegister, secondRegister] called firstRegister ∧
      ∀ earlier ∈ before, ∃ other, earlier = .ok other ∧
        ∀ mtd ∈ [firstRegister, secondRegister], mtd.subSignature ≠ other.subSignature := by
  have finds : findVulIPCCall sameShaped.toProgram [firstRegister, secondRegister] (sampleMethod "listen") =
      .ok (some firstRegister) := by
    decide +kernel
  exact ⟨finds, .single (.inr (by decide)), returned_matches finds⟩

theorem sameShaped_finds : findVulIPCCall sameShaped.toProgram [secondRegister] (sampleMethod "listen") =
    .ok (some secondRegister) := by
  decide +kernel

theorem sameShaped_calls (calls : CallsWithin sameShaped e called) : called.declaringClass = firstService := by
  obtain ⟨mtd, _, u, inside, inv, invoked, _, rfl⟩ := calls
  have written : u ∈ (if mtd.name = "listen" then [invocation (.interface ⟨"service", 0⟩) "IFirst" "register" []] else []) :=
    inside
  split at written
  · obtain rfl := List.mem_singleton.mp written
    cases invoked
    rfl
  · cases written

/-- What is above the second service. -/
theorem sameShaped_above (above : TransGen (DirectSupertype sameShaped) ⟨"SecondService"⟩ sup) :
    sup = ⟨"ISecond"⟩ ∨ sup = IInterface := by
  have listed {sc sup : SootClass} (step : DirectSupertype sameShaped sc sup) : sup ∈ sameShaped.interfaces sc := by
    rcases step with superclass | inf
    · cases superclass
    · exact inf
  induction above with
  | single step => exact .inl (List.mem_singleton.mp (listed step))
  | tail _ step ih =>
    rcases ih with rfl | rfl
    · exact .inr (List.mem_singleton.mp (listed step))
    · cases listed step

/-- The helper is reported for the exit point of a service that does not
implement the interface it calls. -/
theorem sameShaped_mismatched :
    findVulIPCCall sameShaped.toProgram [secondRegister] (sampleMethod "listen") = .ok (some secondRegister) ∧
    ¬ ∃ called, CallsWithin sameShaped (sampleMethod "listen") called ∧ secondRegister.subSignature = called.subSignature ∧
      ImplementedBy sameShaped called.declaringClass secondRegister := by
  refine ⟨sameShaped_finds, ?_⟩
  rintro ⟨called, calls, _, implemented⟩
  rw [sameShaped_calls calls] at implemented
  have different : firstService ≠ ⟨"ISecond"⟩ ∧ firstService ≠ IInterface := by decide
  rcases sameShaped_above implemented with same | same
  · exact different.1 same
  · exact different.2 same

/-! ## The first match -/

/-- The search, which stops at what it first finds or cannot resolve, ends with
the first item of the listing. -/
theorem searchCalled_first (p : Program) (exitPoints : List SootMethod) (lev : ℕ) (e : SootMethod) :
    searchCalled p exitPoints lev e = firstOutcome (ipcCalls p exitPoints lev e) := by
  rw [searchCalled_eq_dive, dive_first, outcomes_eq]

end JgreAnalysis.HelperMatches
