import JgreAnalysis.ServiceRegistry
import Mathlib.Data.List.Pairwise

/-! What becomes of one API that is extracted twice. The results of an extraction
are sets of objects in memory. Two entries with the same identity hash alike, but
`equals` compares objects, so the registry keeps both. -/
namespace JgreAnalysis.RegistryEntries
open SootModel FrameworkScene ServiceApi ServiceHelperExtractor ServiceImplExtractor ServiceRegistry
open LoopLaws StoredHashes

/-- The object at a place in memory. -/
def objectAt (memory : ℕ → ServiceApiClass) (id : ℕ) : Object ServiceApiClass := ⟨id, memory id⟩

/-- The registry after a sequence of results, each given by the places of its
objects. -/
def addResults (machine : Machine) (memory : ℕ → ServiceApiClass) (results : List (List ℕ)) : List ApiNode :=
  results.foldl (fun allApi cls => addServiceApiList machine allApi (cls.map (objectAt memory))) []

/-- Two entries agree on the field that their hash is made of. -/
def SameApi (first second : ServiceApiClass) : Prop :=
  identityText first = identityText second ∧ (identityText first).isSome = true

instance (first second : ServiceApiClass) : Decidable (SameApi first second) := inferInstanceAs (Decidable (_ ∧ _))

/-- The registry holds one entry for each API. -/
def OneEntryPerApi (allApi : List ApiNode) : Prop :=
  allApi.Pairwise fun first second => ¬ SameApi first.object.value second.object.value

instance (allApi : List ApiNode) : Decidable (OneEntryPerApi allApi) :=
  inferInstanceAs (Decidable (List.Pairwise _ _))

variable {machine : Machine} {memory : ℕ → ServiceApiClass}

/-- An entry whose object has not changed since it was added. -/
def nodeAt (machine : Machine) (memory : ℕ → ServiceApiClass) (id : ℕ) : ApiNode :=
  ⟨hashCode machine (objectAt memory id), objectAt memory id⟩

theorem contains_nodeAt (kept : List ℕ) (id : ℕ) :
    contains (hashCode machine) (kept.map (nodeAt machine memory)) (objectAt memory id) = true ↔ id ∈ kept := by
  rw [contains, List.any_map, List.any_eq_true]
  constructor
  · rintro ⟨other, member, found⟩
    have same : other = id := by simpa [nodeAt, objectAt] using (Bool.and_eq_true_iff.mp found).2
    exact same ▸ member
  · intro member
    exact ⟨id, member, by simp [nodeAt]⟩

/-- As long as objects do not change, a set of them is a set of places. -/
theorem addAll_places (kept added : List ℕ) :
    addAll (hashCode machine) (kept.map (nodeAt machine memory)) (added.map (objectAt memory)) =
      (KeyedSets.addAll id kept added).map (nodeAt machine memory) := by
  induction added generalizing kept with
  | nil => rfl
  | cons place added ih =>
    have one : add (hashCode machine) (kept.map (nodeAt machine memory)) (objectAt memory place) =
        (KeyedSets.add id kept place).map (nodeAt machine memory) := by
      by_cases member : place ∈ kept
      · rw [add, if_pos ((contains_nodeAt kept place).mpr member)]
        simp [KeyedSets.add, member]
      · rw [add, if_neg (mt (contains_nodeAt kept place).mp member), KeyedSets.add_of_not_mem member]
        simp [nodeAt]
    rw [List.map_cons, addAll, List.foldl_cons, one]
    exact ih _

/-- The order in which a result iterates is an order of its places. -/
theorem arranged_places (memory : ℕ → ServiceApiClass) (order : HashOrder (Object ServiceApiClass)) (cls : List ℕ) :
    ∃ places : List ℕ, order.arrange (cls.map (objectAt memory)) = places.map (objectAt memory) ∧ places.Perm cls := by
  have shuffled := order.arrange_perm (cls.map (objectAt memory))
  refine ⟨(order.arrange (cls.map (objectAt memory))).map Object.id, ?_, ?_⟩
  · rw [List.map_map]
    refine (List.map_id _).symm.trans (List.map_congr_left fun object member => ?_)
    obtain ⟨id, _, rfl⟩ := List.mem_map.mp (shuffled.mem_iff.mp member)
    rfl
  · simpa [Function.comp_def, objectAt] using shuffled.map Object.id

/-- The registry holds every object that was added, once. -/
theorem addResults_places (machine : Machine) (memory : ℕ → ServiceApiClass) (results : List (List ℕ)) :
    ∃ kept : List ℕ, addResults machine memory results = kept.map (nodeAt machine memory) ∧ kept.Nodup ∧
      ∀ id, id ∈ kept ↔ id ∈ results.flatten := by
  have added (held : List ℕ) (distinct : held.Nodup) : ∃ kept : List ℕ,
      results.foldl (fun allApi cls => addServiceApiList machine allApi (cls.map (objectAt memory)))
        (held.map (nodeAt machine memory)) = kept.map (nodeAt machine memory) ∧ kept.Nodup ∧
      ∀ id, id ∈ kept ↔ id ∈ held ∨ id ∈ results.flatten := by
    induction results generalizing held with
    | nil => exact ⟨held, rfl, distinct, by simp⟩
    | cons cls results ih =>
      obtain ⟨places, arranged, shuffled⟩ := arranged_places memory machine.apiOrder cls
      obtain ⟨kept, ran, once, members⟩ := ih (KeyedSets.addAll id held places) (KeyedSets.addAll_nodup distinct places)
      refine ⟨kept, ?_, once, fun id => ?_⟩
      · rw [List.foldl_cons, addServiceApiList, arranged, addAll_places, ran]
      · rw [members, KeyedSets.mem_addAll, shuffled.mem_iff, List.flatten_cons, List.mem_append, or_assoc]
  obtain ⟨kept, ran, once, members⟩ := added [] List.nodup_nil
  exact ⟨kept, ran, once, by simpa using members⟩

/-- The registry has one entry for each API exactly when no two of the objects
added are of one. -/
theorem one_entry_iff (machine : Machine) (memory : ℕ → ServiceApiClass) (results : List (List ℕ)) :
    OneEntryPerApi (addResults machine memory results) ↔
      ∀ first ∈ results.flatten, ∀ second ∈ results.flatten, first ≠ second →
        ¬ SameApi (memory first) (memory second) := by
  obtain ⟨kept, ran, once, members⟩ := addResults_places machine memory results
  have mirrored : Std.Symm fun first second : ℕ => ¬ SameApi (memory first) (memory second) :=
    ⟨fun first second apart same => apart ⟨same.1.symm, same.1 ▸ same.2⟩⟩
  rw [OneEntryPerApi, ran, List.pairwise_map]
  change (kept.Pairwise fun first second => ¬ SameApi (memory first) (memory second)) ↔ _
  constructor
  · intro apart first firstAdded second secondAdded different
    exact apart.forall ((members first).mpr firstAdded) ((members second).mpr secondAdded) different
  · intro apart
    exact once.pairwise_of_forall_ne fun first firstKept second secondKept different =>
      apart first ((members first).mp firstKept) second ((members second).mp secondKept) different

/-- New objects lie one behind the other in memory. -/
theorem allocate_places (memory : ℕ → ServiceApiClass) (apis : List ServiceApiClass) (first : ℕ)
    (stored : ∀ index (inside : index < apis.length), memory (first + index) = apis[index]) :
    allocate first apis = (List.range' first apis.length).map (objectAt memory) := by
  unfold allocate
  induction apis generalizing first with
  | nil => rfl
  | cons api apis ih =>
    have here : memory first = api := stored 0 (Nat.zero_lt_succ _)
    have rest := ih (first + 1) fun index inside => by
      have later := stored (index + 1) (Nat.succ_lt_succ inside)
      rwa [← Nat.add_assoc, Nat.add_right_comm] at later
    rw [List.zipIdx_cons, List.map_cons, rest, List.length_cons, List.range'_succ, List.map_cons, objectAt, here]

/-- An extraction is a sequence of two results, one for the helpers and one for
the services, and every entry of them is an object of its own. -/
theorem extracted_results (extracted : extractIPCMethods f machine rounds = .ok allApi) :
    ∃ (memory : ℕ → ServiceApiClass) (helpers services : List ServiceApiClass),
      findRegisteredServiceHelperClass f = .ok helpers ∧ extractServiceImpl f rounds = .ok services ∧
      (∀ id, memory id = (helpers ++ services).getD id {}) ∧
      allApi = addResults machine memory [List.range' 0 helpers.length, List.range' helpers.length services.length] := by
  unfold extractIPCMethods at extracted
  obtain ⟨helpers, helping, rest⟩ := bind_ok.mp extracted
  obtain ⟨services, serving, rest⟩ := bind_ok.mp rest
  cases rest
  refine ⟨fun id => (helpers ++ services).getD id {}, helpers, services, helping, serving, fun _ => rfl, ?_⟩
  have helpersLie := allocate_places (fun id => (helpers ++ services).getD id {}) helpers 0
    fun index inside => by simp [List.getElem?_append_left inside, inside]
  have servicesLie := allocate_places (fun id => (helpers ++ services).getD id {}) services helpers.length
    fun index inside => by simp [inside]
  simp only [addResults, List.foldl_cons, List.foldl_nil, helpersLie, servicesLie]

/-! ## A service that is added twice -/

def addedTwice : Framework :=
  let methods : List SootMethod :=
    [{ declaringClass := kServiceHelperRegisterCls, name := "<clinit>", subSignature := "void <clinit>()" },
      { declaringClass := ⟨"com.android.server.Boot"⟩, name := "start", subSignature := "start" }]
  let service : Local := ⟨"service", 0⟩
  let bodies (name : String) : List Stmt :=
    if name = "start" then
      [.assign (.immediate (.loc service)) (.newExpr ⟨"Service"⟩),
        invocation .static kServiceImplAddClsName kServiceImplAddMtdName [.constant "power", .loc service],
        invocation .static kServiceImplAddClsName kServiceImplAddMtdName [.constant "battery", .loc service]]
    else []
  let program : Program := { sampleProgram bodies with
    methods := fun cls => methods.filter fun mtd => mtd.declaringClass = cls }
  { sampleFramework program with applicationClasses := [⟨"com.android.server.Boot"⟩] }

theorem addedTwice_kept_twice :
    ∃ allApi, extractIPCMethods addedTwice ⟨fun _ => 0, insertionOrder, insertionOrder⟩ 3 = .ok allApi ∧
      ¬ OneEntryPerApi allApi :=
  ⟨_, rfl, by decide +kernel⟩

end JgreAnalysis.RegistryEntries
