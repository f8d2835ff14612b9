import JgreAnalysis.JniTables

/-! The map from C++ functions to the Java methods they implement. Every file
updates one map, whose keys are the bare names of the functions. The map is saved
at the end. -/
namespace JgreAnalysis.JniBridgeMap
open CxxJniParser JniTables LastBindings

variable (sources : JniSources)

def parserJniCppRegisterFunc (jniBridgeMap : JniMap) (file : String) : Except JniError JniMap := do
  let results ← parseJni sources file
  pure (update jniBridgeMap results)

def jniJson : String := "data/jni.json"

def processCppFiles (files : List String) : Except JniError JniMap := do
  let jniBridgeMap ← files.foldlM (parserJniCppRegisterFunc sources) ∅
  if sources.opens jniJson then pure jniBridgeMap else throw .osError

/-- All assignments of some files, in order. -/
def allPairs (files : List String) : List (String × JniTarget) := files.flatMap (filePairs sources)

variable {sources}

theorem assignAll_congr {map other : JniMap} (same : ∀ k, map.lookup k = other.lookup k)
    (pairs : List (String × JniTarget)) (k : String) :
    (assignAll map pairs).lookup k = (assignAll other pairs).lookup k := by
  ext v
  rw [lookup_assignAll, lookup_assignAll, same]

/-- The files make their assignments one after the other, where the parser gets
through all of them. -/
theorem foldFiles_ok (files : List String) (map : JniMap) :
    (∀ result, files.foldlM (parserJniCppRegisterFunc sources) map = .ok result →
      (∀ file ∈ files, Passes sources file) ∧
        ∀ k, result.lookup k = (assignAll map (allPairs sources files)).lookup k) ∧
    ((∀ file ∈ files, Passes sources file) →
      ∃ result, files.foldlM (parserJniCppRegisterFunc sources) map = .ok result) := by
  induction files generalizing map with
  | nil =>
    constructor
    · intro result ran
      cases ran
      exact ⟨by simp, fun _ => rfl⟩
    · exact fun _ => ⟨map, rfl⟩
  | cons file files ih =>
    rw [List.foldlM_cons]
    constructor
    · intro result ran
      obtain ⟨next, registered, rest⟩ := LoopLaws.bind_ok.mp ran
      obtain ⟨results, looked, updated⟩ := LoopLaws.bind_ok.mp registered
      obtain ⟨passed, rfl⟩ := (parseJni_ok_iff file results).mp looked
      cases updated
      obtain ⟨later, lookups⟩ := (ih _).1 result rest
      refine ⟨List.forall_mem_cons.mpr ⟨passed, later⟩, fun k => ?_⟩
      rw [lookups, assignAll_congr (lookup_update map (filePairs sources file)), ← assignAll_append]
      rfl
    · intro passed
      obtain ⟨here, later⟩ := List.forall_mem_cons.mp passed
      have looked := (parseJni_ok_iff file _).mpr ⟨here, rfl⟩
      obtain ⟨result, ran⟩ := (ih (update map (assignAll ∅ (filePairs sources file)))).2 later
      exact ⟨result, LoopLaws.bind_ok.mpr ⟨_, LoopLaws.bind_ok.mpr ⟨_, looked, rfl⟩, ran⟩⟩

/-- A map that is saved is the one that all files have updated. -/
theorem processCppFiles_ok_iff (files : List String) (map : JniMap) : processCppFiles sources files = .ok map ↔
    files.foldlM (parserJniCppRegisterFunc sources) ∅ = .ok map ∧ sources.opens jniJson = true := by
  rw [processCppFiles, LoopLaws.bind_ok]
  by_cases opened : sources.opens jniJson = true
  · simp [opened, pure, Except.pure]
  · simp [opened, throw, throwThe, MonadExceptOf.throw]

/-- The files are processed to the end exactly when the parser gets through each of
them and the map can be saved. -/
theorem processCppFiles_ends_iff (files : List String) : (∃ map, processCppFiles sources files = .ok map) ↔
    (∀ file ∈ files, Passes sources file) ∧ sources.opens jniJson = true := by
  simp only [processCppFiles_ok_iff, exists_and_right]
  exact and_congr_left fun _ => ⟨fun ⟨map, ran⟩ => ((foldFiles_ok files ∅).1 map ran).1, (foldFiles_ok files ∅).2⟩

theorem processCppFiles_lookup (ran : processCppFiles sources files = .ok map) (k : String) (target : JniTarget) :
    map.lookup k = some target ↔ IsLast (allPairs sources files) k target := by
  obtain ⟨filled, _⟩ := (processCppFiles_ok_iff files map).mp ran
  rw [((foldFiles_ok files ∅).1 map filled).2, lookup_assignAll]
  exact or_iff_left (by simp)

end JgreAnalysis.JniBridgeMap
