import JgreAnalysis.CopyChains
import JgreAnalysis.PointToAnalysis

/-! What the points-to facts of a body say about a local. The run records what
the statements of the body assign, and the questions about a local are answered
from the facts of that local alone: the loop that follows its copies hands back
the local it was asked for. -/
namespace JgreAnalysis.LocalFacts
open SootModel PointToAnalysis CopyChains

variable (p : Program)

/-- An assignment of the body gives the local this value. -/
def Assigns (mtd : SootMethod) (left : Local) (rightOp : Value) : Prop :=
  .assign (.immediate (.loc left)) rightOp ∈ p.units mtd

/-- The local holds an object that the method allocates, by one of its
assignments. -/
def AssignedNew (mtd : SootMethod) (l : Local) : Prop := ∃ sootClass, Assigns p mtd l (.newExpr sootClass)

def isOutside : Value → Bool
  | .instanceFieldRef _ _ | .parameterRef _ _ | .invoke _ => true
  | _ => false

/-- An assignment or identity statement of the body gives the local the value of
a field, a parameter or the result of an invoke. -/
def AssignedOutside (mtd : SootMethod) (l : Local) : Prop :=
  ∃ u ∈ p.units mtd, ∃ rightOp, isOutside rightOp = true ∧
    (u = .assign (.immediate (.loc l)) rightOp ∨ u = .identity (.immediate (.loc l)) rightOp)

/-- The statement defines the local. -/
def defines (l : Local) : Stmt → Bool
  | .assign (.immediate (.loc left)) _ | .identity (.immediate (.loc left)) _ => left == l
  | _ => false

/-- Exactly one statement of the body defines the local. -/
def AssignedOnce (mtd : SootMethod) (l : Local) : Prop := (p.units mtd).countP (defines l) = 1

instance (mtd : SootMethod) (l : Local) : Decidable (AssignedOnce p mtd l) :=
  inferInstanceAs (Decidable (_ = 1))

/-- Copies lead from the first local, which is no copy itself, to the second,
and each local on the way is assigned once. -/
inductive CopiedFrom (mtd : SootMethod) : Local → Local → Prop where
  | origin : AssignedOnce p mtd l → (∀ r, ¬ Assigns p mtd l (.immediate (.loc r))) → CopiedFrom mtd l l
  | copy : CopiedFrom mtd first r → AssignedOnce p mtd l → Assigns p mtd l (.immediate (.loc r)) → CopiedFrom mtd first l

variable {p}

/-! ## What a run records -/

/-- One statement of the loop of `run`. -/
def recordStatement (facts : PointTo) (u : Stmt) : PointTo :=
  match u with
  | .assign leftOp rightOp => findValueDefines facts leftOp rightOp
  | _ => facts

theorem run_eq (mtd : SootMethod) :
    run p mtd = (p.units mtd).foldl recordStatement ⟨∅, parseMethodBinderParameters p mtd, ∅⟩ := rfl

theorem recordStatement_local (facts : PointTo) (u : Stmt) (l : Local) :
    l ∈ (recordStatement facts u).localValues ↔
      l ∈ facts.localValues ∨ ∃ sootClass, u = .assign (.immediate (.loc l)) (.newExpr sootClass) := by
  unfold recordStatement findValueDefines
  split
  · split
    · split <;> simp
    · simp
    · simp [eq_comm, or_comm]
    · split
      · split <;> simp
      · simp
    · rename_i _ _ allocation _
      refine (or_iff_left ?_).symm
      rintro ⟨sootClass, same⟩
      cases same
      exact allocation l sootClass rfl rfl
  · rename_i other
    refine (or_iff_left ?_).symm
    rintro ⟨sootClass, rfl⟩
    exact other _ _ rfl

/-- A local counts as local when some assignment of the body allocates it. -/
theorem mem_localValues (mtd : SootMethod) (l : Local) : l ∈ (run p mtd).localValues ↔ AssignedNew p mtd l := by
  have grown (units : List Stmt) (facts : PointTo) : l ∈ (units.foldl recordStatement facts).localValues ↔
      l ∈ facts.localValues ∨ ∃ sootClass, .assign (.immediate (.loc l)) (.newExpr sootClass) ∈ units := by
    induction units generalizing facts with
    | nil => simp
    | cons u units ih =>
      rw [List.foldl_cons, ih, recordStatement_local, or_assoc, ← exists_or]
      simp only [List.mem_cons, eq_comm]
  rw [run_eq, grown]
  simp [AssignedNew, Assigns]

/-- A statement links its local when it is a copy, and leaves every other link
alone. -/
theorem recordStatement_leads (facts : PointTo) (u : Stmt) (l r : Local) :
    Leads (recordStatement facts u).pointToSet l r ↔
      u = .assign (.immediate (.loc l)) (.immediate (.loc r)) ∨
        ((∀ other, u ≠ .assign (.immediate (.loc l)) (.immediate (.loc other))) ∧ Leads facts.pointToSet l r) := by
  unfold recordStatement findValueDefines Leads
  split
  · split
    · split <;> simp
    · rename_i left right
      by_cases same : l = left
      · subst same
        simp [eq_comm]
      · simp [AList.lookup_insert_ne same, Ne.symm same]
    · simp
    · split
      · split <;> simp
      · simp
    · rename_i _ copied _ _
      have different (other : Local) : ¬ (_ = _ ∧ _ = _) := fun same => copied l other same.1 same.2
      simp only [Stmt.assign.injEq, ne_eq, different, not_false_eq_true, implies_true, true_and, false_or]
  · rename_i other
    have different (right : Local) : u ≠ .assign (.immediate (.loc l)) (.immediate (.loc right)) := other _ _
    simp [different]

/-- A link of the map is a copy of the body. -/
theorem assigns_of_leads (mtd : SootMethod) (leads : Leads (run p mtd).pointToSet l r) :
    Assigns p mtd l (.immediate (.loc r)) := by
  have traced (units : List Stmt) (facts : PointTo) (leads : Leads (units.foldl recordStatement facts).pointToSet l r) :
      Leads facts.pointToSet l r ∨ .assign (.immediate (.loc l)) (.immediate (.loc r)) ∈ units := by
    induction units generalizing facts with
    | nil => exact .inl leads
    | cons u units ih =>
      rcases ih (recordStatement facts u) leads with here | later
      · rcases (recordStatement_leads facts u l r).mp here with rfl | ⟨_, before⟩
        · exact .inr List.mem_cons_self
        · exact .inl before
      · exact .inr (List.mem_cons_of_mem _ later)
  rcases traced _ _ (run_eq mtd ▸ leads) with old | copied
  · simp [Leads] at old
  · exact copied

/-- The locals with a link are those that are copies. -/
theorem mem_pointToSet (mtd : SootMethod) (l : Local) :
    l ∈ (run p mtd).pointToSet ↔ ∃ r, Assigns p mtd l (.immediate (.loc r)) := by
  have kept (units : List Stmt) (facts : PointTo)
      (linked : (∃ r, Leads facts.pointToSet l r) ∨ ∃ r, .assign (.immediate (.loc l)) (.immediate (.loc r)) ∈ units) :
      ∃ r, Leads (units.foldl recordStatement facts).pointToSet l r := by
    induction units generalizing facts with
    | nil => simpa using linked
    | cons u units ih =>
      apply ih
      by_cases copy : ∃ r, u = .assign (.immediate (.loc l)) (.immediate (.loc r))
      · obtain ⟨r, same⟩ := copy
        exact .inl ⟨r, (recordStatement_leads facts u l r).mpr (.inl same)⟩
      · rcases linked with ⟨r, old⟩ | ⟨r, member⟩
        · refine .inl ⟨r, (recordStatement_leads facts u l r).mpr (.inr ⟨fun other same => copy ⟨other, same⟩, old⟩)⟩
        · rcases List.mem_cons.mp member with same | later
          · exact absurd ⟨r, same.symm⟩ copy
          · exact .inr ⟨r, later⟩
  constructor
  · intro present
    obtain ⟨r, leads⟩ := leads_of_mem present
    exact ⟨r, assigns_of_leads mtd leads⟩
  · intro copied
    obtain ⟨_, leads⟩ := kept (p.units mtd) ⟨∅, parseMethodBinderParameters p mtd, ∅⟩ (.inr copied)
    exact mem_of_leads leads

/-! ## What the facts answer -/

/-- The loop never finds a key without a value, so it leaves through its test,
and the statement behind it returns the local it was given. -/
theorem chase_eq (pointToSet : AList fun _ : Local => Local) (loc : Local) (visitSet : Finset Local) (cur : Local) :
    chase pointToSet loc visitSet cur = loc := by
  induction visitSet, cur using chase.induct pointToSet with
  | case1 visitSet cur turn absent =>
    obtain ⟨next, leads⟩ := leads_of_mem turn.1
    rw [Leads, absent] at leads
    cases leads
  | case2 visitSet cur turn next leads ih =>
    rw [chase, dif_pos turn]
    split
    · rename_i absent
      rw [leads] at absent
      cases absent
    · rename_i other found
      rw [leads] at found
      cases found
      exact ih
  | case3 visitSet cur stop => rw [chase, dif_neg stop]

@[simp] theorem getLocalPointTo_eq (facts : PointTo) (loc : Local) : getLocalPointTo facts loc = loc := chase_eq ..

theorem getLocalDefine_eq (facts : PointTo) (loc : Local) : getLocalDefine facts loc = facts.valueDefines.lookup loc := by
  rw [getLocalDefine, getLocalPointTo_eq]

theorem isLocalValue_iff (mtd : SootMethod) (l : Local) :
    isLocalValue (run p mtd) l = true ↔ AssignedNew p mtd l := by
  simp [isLocalValue, mem_localValues]

/-! ## Chains of copies -/

/-- Two definitions of a local that is assigned once are the same statement. -/
theorem definition_unique (once : AssignedOnce p mtd l) (one : u ∈ p.units mtd) (other : v ∈ p.units mtd)
    (first : defines l u = true) (second : defines l v = true) : u = v := by
  rw [AssignedOnce, List.countP_eq_length_filter, List.length_eq_one_iff] at once
  obtain ⟨definition, listed⟩ := once
  have only (w : Stmt) (member : w ∈ p.units mtd) (defined : defines l w = true) : w = definition := by
    have filtered : w ∈ (p.units mtd).filter (defines l) := List.mem_filter.mpr ⟨member, defined⟩
    rw [listed] at filtered
    exact List.mem_singleton.mp filtered
  rw [only u one first, only v other second]

/-- The map follows the copies of a chain to its origin. -/
theorem ends_of_copiedFrom (chain : CopiedFrom p mtd origin l) : Ends (run p mtd).pointToSet l origin := by
  induction chain with
  | origin _ uncopied => exact ends_self_iff.mpr fun present => not_exists.mpr uncopied ((mem_pointToSet mtd _).mp present)
  | copy _ once copied ih =>
    obtain ⟨next, leads⟩ := leads_of_mem ((mem_pointToSet mtd _).mpr ⟨_, copied⟩)
    have same := definition_unique once copied (assigns_of_leads mtd leads) (by simp [defines]) (by simp [defines])
    cases same
    exact (ends_cons leads).mpr ih

/-- Every chain of copies is followed to its end exactly when no local whose
chain ends is a copy at all. -/
theorem aliases_resolved_iff (p : Program) (mtd : SootMethod) :
    ((∀ l, Acyclic (run p mtd).pointToSet l →
        ∃ last, Ends (run p mtd).pointToSet l last ∧ getLocalPointTo (run p mtd) l = last) ∧
      ∀ origin l, CopiedFrom p mtd origin l →
        getLocalDefine (run p mtd) l = (run p mtd).valueDefines.lookup origin ∧
        (isLocalValue (run p mtd) l = true ↔ AssignedNew p mtd origin)) ↔
    ∀ l, Acyclic (run p mtd).pointToSet l → ∀ r, ¬ Assigns p mtd l (.immediate (.loc r)) := by
  constructor
  · rintro ⟨resolved, _⟩ l acyclic r copied
    obtain ⟨last, ends, found⟩ := resolved l acyclic
    rw [getLocalPointTo_eq] at found
    exact (found ▸ ends.2) ((mem_pointToSet mtd l).mpr ⟨r, copied⟩)
  · intro uncopied
    have alone (l : Local) (acyclic : Acyclic (run p mtd).pointToSet l) : Ends (run p mtd).pointToSet l l :=
      ends_self_iff.mpr fun present => not_exists.mpr (uncopied l acyclic) ((mem_pointToSet mtd l).mp present)
    constructor
    · intro l acyclic
      exact ⟨l, alone l acyclic, getLocalPointTo_eq _ l⟩
    · intro origin l chain
      have ends := ends_of_copiedFrom chain
      have same : l = origin := ends_unique (alone l (acyclic_of_ends ends)) ends
      subst same
      exact ⟨getLocalDefine_eq _ l, isLocalValue_iff mtd l⟩

/-- A body with a new object and a copy of it. -/
def copying : Program := sampleProgram fun _ =>
  [.assign (.immediate (.loc ⟨"list", 0⟩)) (.newExpr ⟨"java.util.ArrayList"⟩),
    .assign (.immediate (.loc ⟨"alias", 1⟩)) (.immediate (.loc ⟨"list", 0⟩))]

/-- The copy is resolved to itself, so nothing is known of it. -/
theorem copying_not_resolved :
    ∃ l origin, CopiedFrom copying (sampleMethod "entry") origin l ∧
      Acyclic (run copying (sampleMethod "entry")).pointToSet l ∧
      ¬ (∃ last, Ends (run copying (sampleMethod "entry")).pointToSet l last ∧
        getLocalPointTo (run copying (sampleMethod "entry")) l = last) ∧
      (run copying (sampleMethod "entry")).valueDefines.lookup origin = some ⟨"java.util.ArrayList"⟩ ∧
      getLocalDefine (run copying (sampleMethod "entry")) l = none ∧
      AssignedNew copying (sampleMethod "entry") origin ∧
      isLocalValue (run copying (sampleMethod "entry")) l = false := by
  have chain : CopiedFrom copying (sampleMethod "entry") ⟨"list", 0⟩ ⟨"alias", 1⟩ := by
    refine .copy (.origin (by decide) ?_) (by decide) (.tail _ (.head _))
    rintro r copied
    simp [Assigns, copying, sampleProgram, Program.units] at copied
  have ends := ends_of_copiedFrom chain
  refine ⟨⟨"alias", 1⟩, ⟨"list", 0⟩, chain, acyclic_of_ends ends, ?_, by decide, ?_, ⟨_, .head _⟩, ?_⟩
  · rintro ⟨last, chainEnds, found⟩
    rw [getLocalPointTo_eq] at found
    subst found
    exact absurd (ends_unique chainEnds ends) (by decide)
  · rw [getLocalDefine_eq]
    decide
  · rw [isLocalValue, getLocalPointTo_eq]
    decide

/-! ## Locals that count as local -/

/-- A local that counts as local never gets a value from outside exactly when
the body does not give it both a new object and such a value. -/
theorem localValue_inside_iff (p : Program) (mtd : SootMethod) (l : Local) :
    (isLocalValue (run p mtd) l = true → ¬ AssignedOutside p mtd l) ↔
      ¬ (AssignedNew p mtd l ∧ AssignedOutside p mtd l) := by
  rw [isLocalValue_iff, not_and]

/-- A body that first makes a list of its own and then takes one of the service
into the same local. -/
def replacing : Program := sampleProgram fun _ =>
  [.assign (.immediate (.loc ⟨"list", 0⟩)) (.newExpr ⟨"java.util.ArrayList"⟩),
    .assign (.immediate (.loc ⟨"list", 0⟩))
      (.instanceFieldRef ⟨"this", 1⟩ ⟨"mListeners", .refType ⟨"java.util.ArrayList"⟩⟩)]

theorem replacing_counts_as_local : isLocalValue (run replacing (sampleMethod "entry")) ⟨"list", 0⟩ = true ∧
    AssignedOutside replacing (sampleMethod "entry") ⟨"list", 0⟩ := by
  refine ⟨(isLocalValue_iff _ _).mpr ⟨_, .head _⟩, _, .tail _ (.head _), _, ?_, .inl rfl⟩
  rfl

end JgreAnalysis.LocalFacts
