import JgreAnalysis.FrameworkScene
import JgreAnalysis.VulnerabilitiesDetecting

/-! Which method serves a call on a service, and whether it is analysed. A call
is dispatched to the nearest declaration on the way up from the class of the
service, and the analysis goes over the methods of that class alone, one after
the other, until one of them cannot be analysed. -/
namespace JgreAnalysis.MethodDispatch
open SootModel FrameworkScene CallGraphSearch VulnerabilitiesDetecting LoopLaws

variable (f : Framework)

/-- Dispatch of a sub-signature on a class selects the method of the nearest
class, itself or above, that declares it. -/
inductive Selects (signature : String) : SootClass → SootMethod → Prop where
  | declared : m ∈ f.methods sc → m.subSignature = signature → Selects signature sc m
  | inherited : (∀ m ∈ f.methods sc, m.subSignature ≠ signature) → f.superclass sc = some sup →
      Selects signature sup m → Selects signature sc m

/-- The method is what a public method of the interface is dispatched to, and it
is concrete. -/
def Serves (implClass inf : SootClass) (m : SootMethod) : Prop :=
  (∃ declared ∈ f.methods inf, declared.isPublic = true ∧ Selects f declared.subSignature implClass m) ∧
    m.isConcrete = true

/-- The loop of `analysisImplClass` comes to the method and hands it on. -/
def Passed (implClass inf : SootClass) (d : Detection) (m : SootMethod) : Prop :=
  ∃ before after middle, f.methods implClass = before ++ m :: after ∧
    before.forM (analysisImplMethod f.toProgram (getPublicApis f.toProgram inf)) d = .ok ((), middle) ∧
    m.subSignature ∈ getPublicApis f.toProgram inf

/-- The interface has a public method of this sub-signature, and the analysis
of the method meets a call that is not found. -/
def StopsAnalysis (inf : SootClass) (m : SootMethod) : Prop :=
  (∃ declared ∈ f.methods inf, declared.isPublic = true ∧ declared.subSignature = m.subSignature) ∧
    ∃ problem, freshAnalysis f.toProgram callGraphLev m = .error problem

variable {f}

theorem subSignature_of_selects (selects : Selects f signature sc m) : m.subSignature = signature := by
  induction selects with
  | declared _ same => exact same
  | inherited _ _ _ ih => exact ih

/-- The loop gets through some methods exactly when none of them stops it. -/
theorem loop_through_iff (inf : SootClass) (before : List SootMethod) (d : Detection) :
    (∃ middle, before.forM (analysisImplMethod f.toProgram (getPublicApis f.toProgram inf)) d = .ok ((), middle)) ↔
      ∀ m ∈ before, ¬ StopsAnalysis f inf m := by
  constructor
  · rintro ⟨middle, ran⟩ m member ⟨⟨declared, inside, visible, same⟩, problem, fails⟩
    obtain ⟨reached, next, round⟩ := each_ran ran member
    have listed : m.subSignature ∈ getPublicApis f.toProgram inf :=
      (mem_getPublicApis inf _).mpr ⟨declared, inside, visible, same⟩
    rcases analysisImplMethod_cases f.toProgram (getPublicApis f.toProgram inf) m reached with
      ⟨_, vul, st, found, _⟩ | ⟨quiet, _⟩ | ⟨_, _, _, step⟩
    · rw [fails] at found
      cases found
    · obtain ⟨st, found⟩ := quiet listed
      rw [fails] at found
      cases found
    · rw [round] at step
      cases step
  · intro through
    obtain ⟨⟨_, middle⟩, ran⟩ := each_total before (fun m member reached => by
      rcases analysisImplMethod_cases f.toProgram (getPublicApis f.toProgram inf) m reached with
        ⟨_, _, _, _, step⟩ | ⟨_, step⟩ | ⟨listed, problem, fails, _⟩
      · exact ⟨_, step⟩
      · exact ⟨_, step⟩
      · exact absurd ⟨(mem_getPublicApis inf _).mp listed, problem, fails⟩ (through m member)) d
    exact ⟨middle, ran⟩

/-- Every method that serves the interface is analysed exactly when the class
declares each of them itself, at a place in front of which no method stops the
analysis. -/
theorem served_passed_iff (f : Framework) (implClass inf : SootClass) (d : Detection) :
    (∀ m, Serves f implClass inf m → Passed f implClass inf d m) ↔
    ∀ m, Serves f implClass inf m → ∃ before after, f.methods implClass = before ++ m :: after ∧
      ∀ earlier ∈ before, ¬ StopsAnalysis f inf earlier := by
  refine forall_congr' fun m => imp_congr_right fun serves => ?_
  obtain ⟨⟨declared, inside, visible, selects⟩, _⟩ := serves
  have listed : m.subSignature ∈ getPublicApis f.toProgram inf :=
    (mem_getPublicApis inf _).mpr ⟨declared, inside, visible, (subSignature_of_selects selects).symm⟩
  constructor
  · rintro ⟨before, after, middle, split, ran, _⟩
    exact ⟨before, after, split, (loop_through_iff inf before d).mp ⟨middle, ran⟩⟩
  · rintro ⟨before, after, split, through⟩
    obtain ⟨middle, ran⟩ := (loop_through_iff inf before d).mpr through
    exact ⟨before, after, middle, split, ran, listed⟩

/-- A service that leaves the method of its interface to the class it extends. -/
def inheriting : Framework :=
  { sampleFramework { sampleProgram fun _ => [] with
      methods := fun sc =>
        if sc = ⟨"IService"⟩ ∨ sc = ⟨"BaseService"⟩ then
          [{ declaringClass := sc, name := "register", subSignature := "void register()" }]
        else [] } with
    superclass := fun sc => if sc = ⟨"Service"⟩ then some ⟨"BaseService"⟩ else none }

/-- The inherited method serves the interface, and the loop over the service does
not come to it. -/
theorem inherited_not_passed : ∃ m, Serves inheriting ⟨"Service"⟩ ⟨"IService"⟩ m ∧
    ¬ Passed inheriting ⟨"Service"⟩ ⟨"IService"⟩ {} m := by
  refine ⟨{ declaringClass := ⟨"BaseService"⟩, name := "register", subSignature := "void register()" }, ⟨?_, rfl⟩, ?_⟩
  · refine ⟨{ declaringClass := ⟨"IService"⟩, name := "register", subSignature := "void register()" }, by decide, rfl, ?_⟩
    exact .inherited (by decide) rfl (.declared (by decide) rfl)
  · rintro ⟨before, after, middle, split, _⟩
    have none : inheriting.methods ⟨"Service"⟩ = [] := by decide
    rw [none] at split
    simp at split

end JgreAnalysis.MethodDispatch
