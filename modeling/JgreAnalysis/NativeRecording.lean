import JgreAnalysis.GroupedSets
import JgreAnalysis.NativeCallGraph

/-! What the native graph holds after some files. A file adds what it records to
the sets of the graph, and under the graph's own notion of equal edges neither
the order of the files nor their number of repetitions can be seen in it. -/
namespace JgreAnalysis.NativeRecording
open NativeCallGraph GroupedSets

/-- The full names of the edges that are kept under a name. -/
def fullNames (graph : CallGraph) (name : String) : List String := (getCallSet graph name).map Edge.fullName

variable {sources : Sources}

/-- The operations of a file fill the sets of the graph. -/
theorem addOperations_eq (graph : CallGraph) (ops : List (String × Edge)) :
    addOperations graph ops = putAll Edge.fullName graph ops := rfl

theorem mem_addOperations (graph : CallGraph) (ops : List (String × Edge)) (name : String) :
    name ∈ addOperations graph ops ↔ name ∈ graph ∨ ∃ op ∈ ops, op.1 = name := by
  rw [addOperations_eq, mem_putAll, List.mem_map]

theorem fullName_recorded (graph : CallGraph) (ops : List (String × Edge)) (name full : String) :
    full ∈ fullNames (addOperations graph ops) name ↔
      full ∈ fullNames graph name ∨ ∃ edge, (name, edge) ∈ ops ∧ edge.fullName = full :=
  key_mem_putAll graph ops name full

theorem mem_addFiles (files : List String) (name : String) :
    name ∈ addFiles sources files ↔ ∃ file ∈ files, ∃ op ∈ fileOperations sources file, op.1 = name := by
  rw [addFiles_eq, mem_addOperations, or_iff_right (AList.notMem_empty name)]
  constructor
  · rintro ⟨op, added, rfl⟩
    obtain ⟨file, member, recorded⟩ := List.mem_flatMap.mp added
    exact ⟨file, member, op, recorded, rfl⟩
  · rintro ⟨file, member, op, recorded, rfl⟩
    exact ⟨op, List.mem_flatMap.mpr ⟨file, member, recorded⟩, rfl⟩

theorem fullName_addFiles (files : List String) (name full : String) :
    full ∈ fullNames (addFiles sources files) name ↔
      ∃ file ∈ files, ∃ edge, (name, edge) ∈ fileOperations sources file ∧ edge.fullName = full := by
  rw [addFiles_eq, fullName_recorded, or_iff_right (by simp [fullNames, getCallSet])]
  constructor
  · rintro ⟨edge, added, named⟩
    obtain ⟨file, member, recorded⟩ := List.mem_flatMap.mp added
    exact ⟨file, member, edge, recorded, named⟩
  · rintro ⟨file, member, edge, recorded, named⟩
    exact ⟨edge, List.mem_flatMap.mpr ⟨file, member, recorded⟩, named⟩

/-- What the graph records of some files depends only on which files they are,
and a file that was added before adds nothing. -/
theorem recorded_by_files (sources : Sources) :
    (∀ files other : List String, (∀ file, file ∈ files ↔ file ∈ other) → ∀ name,
      (name ∈ addFiles sources files ↔ name ∈ addFiles sources other) ∧
      ∀ full, full ∈ fullNames (addFiles sources files) name ↔ full ∈ fullNames (addFiles sources other) name) ∧
    ∀ (files : List String) (file : String), file ∈ files → ∀ name,
      (addFile sources (addFiles sources files) file).lookup name = (addFiles sources files).lookup name := by
  constructor
  · intro files other same name
    refine ⟨?_, fun full => ?_⟩
    · rw [mem_addFiles, mem_addFiles]
      simp only [same]
    · rw [fullName_addFiles, fullName_addFiles]
      simp only [same]
  · intro files file member name
    rw [addFile_eq, addOperations_eq]
    refine putAll_absorbs (fun op added => ⟨?_, ?_⟩) name
    · exact (mem_addFiles files op.1).mpr ⟨file, member, op, added, rfl⟩
    · exact (fullName_addFiles files op.1 op.2.fullName).mpr ⟨file, member, op.2, added, rfl⟩

end JgreAnalysis.NativeRecording
