import JgreAnalysis.LoopLaws
import JgreAnalysis.ServiceImplExtractor
import JgreAnalysis.StoredHashes

/-! The registry of service entries. Extraction fills a hash set with one object
for each registration it finds, and the closing report completes the entries in
place, inside the set. Every producer of entries makes one of two kinds, and the
completion does not touch what the hash of its kind is made of. -/
namespace JgreAnalysis.ServiceRegistry
open SootModel FrameworkScene ServiceApi ServiceHelperExtractor ServiceImplExtractor
open LoopLaws StoredHashes

/-- The UTF-16 units of a character. -/
def utf16Units (c : Char) : List ℕ :=
  if c.toNat < 0x10000 then [c.toNat]
  else [0xD800 + (c.toNat - 0x10000) / 0x400, 0xDC00 + (c.toNat - 0x10000) % 0x400]

/-- `String.hashCode` of the Java library. -/
def stringHashCode (text : String) : BitVec 32 :=
  (text.toList.flatMap utf16Units).foldl (fun hash unit => 31 * hash + BitVec.ofNat 32 unit) 0

/-- The first field that is set, in the order in which `hashCode` asks. -/
def identityText (api : ServiceApiClass) : Option String :=
  api.inf.map SootClass.name <|> api.helperClass.map SootClass.name <|> api.implClass.map SootClass.name <|>
    api.managerName <|> api.serviceName

abbrev ApiNode := Node ServiceApiClass (BitVec 32)

/-- What the machine decides: the hash of an object without a field, and the
order in which sets of entries iterate. -/
structure Machine where
  identityHash : ℕ → BitVec 32
  apiOrder : HashOrder (Object ServiceApiClass)
  nodeOrder : HashOrder ApiNode

variable (f : Framework) (machine : Machine)

/-- `ServiceApiClass.hashCode`. Its `equals` asks whether the other object is a
`ServiceApiList`, which no entry is, and so compares identities. -/
def hashCode (api : Object ServiceApiClass) : BitVec 32 :=
  match identityText api.value with
  | some text => stringHashCode text
  | none => machine.identityHash api.id

/-- New objects, numbered from the first free number. -/
def allocate (first : ℕ) (apis : List ServiceApiClass) : List (Object ServiceApiClass) :=
  (apis.zipIdx first).map fun item => ⟨item.2, item.1⟩

def addServiceApiList (allApi : List ApiNode) (cls : List (Object ServiceApiClass)) : List ApiNode :=
  addAll (hashCode machine) allApi (machine.apiOrder.arrange cls)

/-- `IPCExtractor.extractIPCMethods`, with the rounds that a search for
interfaces may take. -/
def extractIPCMethods (rounds : ℕ) : Extraction (List ApiNode) := do
  let helpers ← findRegisteredServiceHelperClass f
  let allApi := addServiceApiList machine [] (allocate 0 helpers)
  let services ← extractServiceImpl f rounds
  pure (addServiceApiList machine allApi (allocate helpers.length services))

/-! ## The closing report -/

structure Counts where
  helperCnt : ℕ := 0
  implCnt : ℕ := 0
  helperApiNum : ℕ := 0
  implApiNum : ℕ := 0
  deriving DecidableEq, Repr

/-- The exception of a `!!`. -/
structure NullPointer where
  deriving DecidableEq, Repr

abbrev Reporting := StateT Counts (Except NullPointer)

def countHelper (helperClass : SootClass) (counts : Counts) : Counts :=
  { counts with
    helperCnt := counts.helperCnt + 1
    helperApiNum := counts.helperApiNum + (f.methods helperClass).countP fun mtd => mtd.isPublic && mtd.isConcrete }

def countImpl (inf : SootClass) (counts : Counts) : Counts :=
  { counts with
    implCnt := counts.implCnt + 1
    implApiNum := counts.implApiNum + (f.methods inf).countP f.isAbstract }

/-- One entry of the report. A service without an interface gets its class for
one. -/
def reportEntry (api : ServiceApiClass) : Reporting ServiceApiClass :=
  match api.helperClass with
  | some helperClass => do
    modify (countHelper f helperClass)
    pure api
  | none => do
    let api := if api.inf = none then { api with inf := api.implClass } else api
    match api.inf with
    | none => throw ⟨⟩
    | some inf =>
      modify (countImpl f inf)
      pure api

/-- The counts that are shown, and the entries as the report leaves them. -/
def simpleReport (allApi : List ApiNode) : Except NullPointer (List ApiNode × Counts) :=
  (updateAll (reportEntry f) allApi).run {}

/-! ## The two kinds of entries -/

/-- The entry is a helper or a service, and not both. -/
def OneKind (api : ServiceApiClass) : Prop :=
  (api.helperClass.isSome = true ∧ api.implClass = none) ∨ (api.helperClass = none ∧ api.implClass.isSome = true)

variable {f machine}

theorem block_helper (ran : extractServiceApiFromRegisterBlock f cls = .ok api) :
    ∃ entry, api = some entry ∧ entry.helperClass.isSome = true ∧ entry.implClass = none := by
  unfold extractServiceApiFromRegisterBlock at ran
  obtain ⟨createMtd, _, ran⟩ := bind_ok.mp ran
  obtain ⟨ret, _, ran⟩ := bind_ok.mp ran
  obtain ⟨value, _, ran⟩ := bind_ok.mp ran
  obtain ⟨helperClass, _, ran⟩ := bind_ok.mp ran
  obtain ⟨tag, _, ran⟩ := bind_ok.mp ran
  cases ran
  exact ⟨_, rfl, rfl, rfl⟩

theorem registered_helper (ran : resolveServiceHelperRegister f invoke = .ok (some api)) :
    api.helperClass.isSome = true ∧ api.implClass = none := by
  unfold resolveServiceHelperRegister at ran
  obtain ⟨registered, _, ran⟩ := bind_ok.mp ran
  split at ran
  · split at ran
    · obtain ⟨blockCls, _, ran⟩ := bind_ok.mp ran
      obtain ⟨made, extracted, ran⟩ := bind_ok.mp ran
      obtain ⟨entry, rfl, helper, service⟩ := block_helper extracted
      cases ran
      exact ⟨helper, service⟩
    · cases ran
  · cases ran

theorem helpers_only (ran : findRegisteredServiceHelperClass f = .ok apis) (member : api ∈ apis) :
    api.helperClass.isSome = true ∧ api.implClass = none := by
  unfold findRegisteredServiceHelperClass at ran
  split at ran
  · cases ran
  · obtain ⟨body, _, ran⟩ := bind_ok.mp ran
    obtain ⟨made, mapped, ran⟩ := bind_ok.mp ran
    cases ran
    obtain ⟨entry, inside, same⟩ := List.mem_filterMap.mp member
    obtain ⟨invoke, _, registered⟩ := mapM_mem mapped inside
    exact registered_helper (registered.trans (congrArg Except.ok same))

/-- The entry names no helper, unless it has no implementing class. -/
def ServiceOnly (api : ServiceApiClass) : Prop := api.implClass.isSome = true → api.helperClass = none

theorem implClass_service (ran : resolveServiceImplInMethod f v mtd = .ok (some api)) : api.helperClass = none := by
  unfold resolveServiceImplInMethod at ran
  obtain ⟨⟨done, impl⟩, solved, ran⟩ := bind_ok.mp ran
  cases ran
  refine JimpleValueSolver.search_keeps (fun impl => ∀ api, impl = some api → api.helperClass = none) ?_ ?_
    (mapError_ok.mp solved) api rfl
  · intro cls state old api found
    unfold takeImplClass at found
    split at found
    · exact old api found
    · cases found
      rfl
  · intro api none
    cases none

theorem addService_keeps (old : ∀ api ∈ implList, ServiceOnly api)
    (ran : resolveAddService f mtd expr implList = .ok (done, final)) : ∀ api ∈ final, ServiceOnly api := by
  unfold resolveAddService at ran
  obtain ⟨call, _, called, rest⟩ := state_bind_ok.mp ran
  obtain ⟨_, rfl⟩ := lift_ok.mp called
  split at rest
  · obtain ⟨nameArg, _, named, later⟩ := state_bind_ok.mp rest
    obtain ⟨_, rfl⟩ := lift_ok.mp named
    obtain ⟨value, _, given, solving⟩ := state_bind_ok.mp later
    obtain ⟨_, rfl⟩ := lift_ok.mp given
    obtain ⟨implClass, _, solved, added⟩ := state_bind_ok.mp solving
    obtain ⟨resolved, rfl⟩ := lift_ok.mp solved
    cases implClass with
    | none =>
      cases added
      exact List.forall_mem_append.mpr ⟨old, by simp [ServiceOnly]⟩
    | some impl =>
      cases added
      exact List.forall_mem_append.mpr ⟨old, by simp [ServiceOnly, implClass_service resolved]⟩
  · cases rest
    exact old

theorem publish_service (ran : extractServicePublic f cls = .ok (some api)) : api.helperClass = none := by
  unfold extractServicePublic at ran
  split at ran
  · cases ran
  · obtain ⟨published, _, ran⟩ := bind_ok.mp ran
    cases published with
    | none => cases ran
    | some published =>
      obtain ⟨name, _, ran⟩ := bind_ok.mp ran
      obtain ⟨value, _, ran⟩ := bind_ok.mp ran
      obtain ⟨implClass, solved, ran⟩ := bind_ok.mp ran
      cases ran
      cases implClass with
      | none => rfl
      | some impl =>
        have service : impl.helperClass = none := implClass_service solved
        exact service

theorem register_keeps (old : ∀ api ∈ implList, ServiceOnly api)
    (ran : resolveServiceImplRegister f cls implList = .ok ((), final)) : ∀ api ∈ final, ServiceOnly api := by
  refine each_keeps (fun found => ∀ api ∈ found, ServiceOnly api) _ (fun mtd _ state next old ran => ?_) old ran
  exact each_keeps (fun found => ∀ api ∈ found, ServiceOnly api) _
    (fun expr _ state next old ran => addService_keeps old ran) old ran

/-- What the searches collect are services wherever they have an implementing
class. -/
theorem searches_keep (ran : (do searchServiceImplRegister f; searchServiceImplPublish f : Extracting Unit) [] =
    .ok (done, implList)) : ∀ api ∈ implList, ServiceOnly api := by
  obtain ⟨_, middle, registered, published⟩ := state_bind_ok.mp ran
  have first : ∀ api ∈ middle, ServiceOnly api := each_keeps (fun found => ∀ api ∈ found, ServiceOnly api) _
    (fun cls _ state next old ran => register_keeps old ran) (by simp) registered
  refine each_keeps (fun found => ∀ api ∈ found, ServiceOnly api) _ (fun cls _ state next old ran => ?_) first published
  obtain ⟨found, _, extracted, rest⟩ := state_bind_ok.mp ran
  obtain ⟨known, rfl⟩ := lift_ok.mp extracted
  cases found with
  | none =>
    cases rest
    exact old
  | some sc =>
    cases rest
    exact List.forall_mem_append.mpr ⟨old, by simp [ServiceOnly, publish_service known]⟩

theorem stub_kind (ran : setStubInterfaceFromImpl f rounds impl = .ok api) :
    api.helperClass = impl.helperClass ∧ api.implClass = impl.implClass := by
  unfold setStubInterfaceFromImpl at ran
  split at ran
  · cases ran
    exact ⟨rfl, rfl⟩
  · split at ran
    · cases ran
      exact ⟨rfl, rfl⟩
    · split at ran
      · cases ran
        exact ⟨rfl, rfl⟩
      · cases ran

theorem services_only (ran : extractServiceImpl f rounds = .ok apis) (member : api ∈ apis) :
    api.helperClass = none ∧ api.implClass.isSome = true := by
  unfold extractServiceImpl at ran
  obtain ⟨⟨done, implList⟩, searched, mapped⟩ := bind_ok.mp ran
  obtain ⟨impl, kept, stubbed⟩ := mapM_mem mapped member
  obtain ⟨listed, implemented⟩ := List.mem_filter.mp kept
  obtain ⟨helper, service⟩ := stub_kind stubbed
  rw [helper, service]
  exact ⟨searches_keep searched impl listed implemented, implemented⟩

theorem mem_allocate (member : object ∈ allocate first apis) : object.value ∈ apis := by
  obtain ⟨item, inside, rfl⟩ := List.mem_map.mp member
  exact (List.mem_zipIdx inside).2.2 ▸ List.getElem_mem _

/-- Every extracted entry is of one kind, and is kept with its present hash. -/
theorem extracted_kinds (extracted : extractIPCMethods f machine rounds = .ok allApi) :
    (∀ node ∈ allApi, OneKind node.object.value) ∧ Settled (hashCode machine) allApi := by
  unfold extractIPCMethods at extracted
  obtain ⟨helpers, helping, rest⟩ := bind_ok.mp extracted
  obtain ⟨services, serving, rest⟩ := bind_ok.mp rest
  cases rest
  constructor
  · intro node member
    rcases mem_addAll_object member with old | new
    · rcases mem_addAll_object old with none | helper
      · cases none
      · exact .inl (helpers_only helping (mem_allocate (machine.apiOrder.mem_arrange.mp helper)))
    · exact .inr (services_only serving (mem_allocate (machine.apiOrder.mem_arrange.mp new)))
  · exact addAll_settled (addAll_settled (by simp [Settled]) _) _

/-! ## The report on well-made entries -/

/-- What the report leaves of an entry. -/
def completed (api : ServiceApiClass) : ServiceApiClass :=
  if api.helperClass = none ∧ api.inf = none then { api with inf := api.implClass } else api

/-- What the report counts of an entry. -/
def counted (f : Framework) (api : ServiceApiClass) (counts : Counts) : Counts :=
  match api.helperClass, (completed api).inf with
  | some helperClass, _ => countHelper f helperClass counts
  | none, some inf => countImpl f inf counts
  | none, none => counts

theorem reportEntry_ok (kind : OneKind api) (counts : Counts) :
    reportEntry f api counts = .ok (completed api, counted f api counts) := by
  rcases kind with ⟨helper, _⟩ | ⟨noHelper, service⟩
  · obtain ⟨helperClass, named⟩ := Option.isSome_iff_exists.mp helper
    simp only [reportEntry, completed, counted, named]
    rfl
  · obtain ⟨implClass, implemented⟩ := Option.isSome_iff_exists.mp service
    cases interface : api.inf with
    | none =>
      simp only [reportEntry, completed, counted, noHelper, interface, implemented]
      rfl
    | some inf =>
      simp only [reportEntry, completed, counted, noHelper, interface, reduceCtorEq, and_false, if_false]
      rfl

/-- A service takes its class for an interface, and its class is what its hash
was made of. -/
theorem hashCode_completed (kind : OneKind object.value) :
    hashCode machine { object with value := completed object.value } = hashCode machine object := by
  unfold completed
  split
  · rename_i alone
    rcases kind with ⟨helper, _⟩ | ⟨noHelper, service⟩
    · simp [alone.1] at helper
    · obtain ⟨implClass, implemented⟩ := Option.isSome_iff_exists.mp service
      simp [hashCode, identityText, alone, implemented]
  · rfl

theorem completed_completed (api : ServiceApiClass) : completed (completed api) = completed api := by
  unfold completed
  split <;> simp_all

theorem kind_completed (kind : OneKind api) : OneKind (completed api) := by
  unfold completed
  split
  · exact kind
  · exact kind

theorem counted_completed (f : Framework) (api : ServiceApiClass) : counted f (completed api) = counted f api := by
  have helper : (completed api).helperClass = api.helperClass := by
    unfold completed
    split <;> rfl
  unfold counted
  rw [helper, completed_completed]

/-- The report completes every well-made entry, and fails on none. -/
theorem simpleReport_ok (kinds : ∀ node ∈ allApi, OneKind node.object.value) :
    simpleReport f allApi = .ok (allApi.map (Node.change completed),
      allApi.foldl (fun counts node => counted f node.object.value counts) {}) :=
  updateAll_ok (fun node member counts => reportEntry_ok (kinds node member) counts) {}

/-- A second report finds nothing to complete, and counts the same. -/
theorem simpleReport_again (kinds : ∀ node ∈ allApi, OneKind node.object.value)
    (reported : simpleReport f allApi = .ok (result, counts)) : simpleReport f result = .ok (result, counts) := by
  rw [simpleReport_ok kinds] at reported
  cases reported
  rw [simpleReport_ok (List.forall_mem_map.mpr fun node member => kind_completed (kinds node member))]
  simp [List.foldl_map, Function.comp_def, Node.change, completed_completed, counted_completed]

/-- The report leaves every entry findable. -/
theorem report_settled (kinds : ∀ node ∈ allApi, OneKind node.object.value) (settled : Settled (hashCode machine) allApi) :
    Settled (hashCode machine) (allApi.map (Node.change completed)) :=
  settled_change settled fun node member => hashCode_completed (kinds node member)

end JgreAnalysis.ServiceRegistry
