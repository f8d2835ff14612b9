import JgreAnalysis.LoopRuns
import JgreAnalysis.PointToAnalysis

/-! The loop of `getLocalPointTo`, turn by turn. The map may hold cycles of
copies, and a chain may lead into one from outside, so what ends the loop is that
every turn visits one more of the keys. -/
namespace JgreAnalysis.AliasChasing
open SootModel PointToAnalysis LoopRuns StateTransition

/-- The variables of the loop, and what the function returns once it does. -/
structure Chasing where
  cur : Local
  visitSet : Finset Local := ∅
  returned : Option Local := none
  deriving DecidableEq

variable (pointToSet : AList fun _ : Local => Local) (loc : Local)

/-- The test of the loop, a turn behind it, or the return behind the loop. -/
def turn (s : Chasing) : Option Chasing :=
  match s.returned with
  | some _ => none
  | none =>
    if s.cur ∈ pointToSet ∧ s.cur ∉ s.visitSet then
      match pointToSet.lookup s.cur with
      | none => some { s with visitSet := insert s.cur s.visitSet, returned := some s.cur }
      | some nxt => some { s with visitSet := insert s.cur s.visitSet, cur := nxt }
    else some { s with returned := some loc }

/-- The local that a turn visits. -/
def visits (s : Chasing) : Option Local :=
  if s.returned = none ∧ s.cur ∈ pointToSet ∧ s.cur ∉ s.visitSet then some s.cur else none

variable {pointToSet loc}

theorem visits_iff (s : Chasing) : visits pointToSet s = some l ↔
    s.returned = none ∧ (s.cur ∈ pointToSet ∧ s.cur ∉ s.visitSet) ∧ s.cur = l := by
  simp [visits, and_assoc]

/-- A turn visits a new key and goes on to its value, or it leaves the loop. -/
theorem turn_cases (turned : turn pointToSet loc s = some t) : s.returned = none ∧
    ((s.cur ∈ pointToSet ∧ s.cur ∉ s.visitSet) ∧
        (∃ nxt, pointToSet.lookup s.cur = some nxt ∧ t = { s with visitSet := insert s.cur s.visitSet, cur := nxt }) ∨
      ¬ (s.cur ∈ pointToSet ∧ s.cur ∉ s.visitSet) ∧ t = { s with returned := some loc }) := by
  unfold turn at turned
  split at turned
  · cases turned
  · rename_i running
    refine ⟨running, ?_⟩
    split at turned
    · rename_i enters
      obtain ⟨nxt, found⟩ := Option.isSome_iff_exists.mp (AList.lookup_isSome.mpr enters.1)
      rw [found] at turned
      cases turned
      exact .inl ⟨enters, nxt, found, rfl⟩
    · rename_i stops
      cases turned
      exact .inr ⟨stops, rfl⟩

/-- The keys that are not visited yet, and the return. -/
def left (pointToSet : AList fun _ : Local => Local) (s : Chasing) : ℕ :=
  (pointToSet.keys.toFinset \ s.visitSet).card + if s.returned = none then 1 else 0

theorem turn_uses (turned : turn pointToSet loc s = some t) : left pointToSet t < left pointToSet s := by
  obtain ⟨running, ⟨⟨key, new⟩, nxt, _, rfl⟩ | ⟨_, rfl⟩⟩ := turn_cases turned
  · have fewer := fewer_left (List.mem_toFinset.mpr key) new
    simp only [left]
    omega
  · simp [left, running]

/-- What comes back from this turn on. -/
def answer (pointToSet : AList fun _ : Local => Local) (loc : Local) (s : Chasing) : Local :=
  s.returned.getD (chase pointToSet loc s.visitSet s.cur)

theorem turn_answer (turned : turn pointToSet loc s = some t) : answer pointToSet loc t = answer pointToSet loc s := by
  obtain ⟨running, ⟨enters, nxt, found, rfl⟩ | ⟨stops, rfl⟩⟩ := turn_cases turned
  · have goes : chase pointToSet loc s.visitSet s.cur = chase pointToSet loc (insert s.cur s.visitSet) nxt := by
      rw [chase, dif_pos enters]
      split
      · rename_i absent
        cases found.symm.trans absent
      · rename_i other present
        cases found.symm.trans present
        rfl
    simp [answer, running, goes]
  · have leaves : chase pointToSet loc s.visitSet s.cur = loc := by
      rw [chase, dif_neg stops]
    simp [answer, running, leaves]

/-- A run ends behind the return. -/
theorem returned_of_end (ended : turn pointToSet loc s = none) : ∃ l, s.returned = some l := by
  apply Option.ne_none_iff_exists'.mp
  intro running
  unfold turn at ended
  rw [running] at ended
  simp only at ended
  split at ended
  · split at ended <;> cases ended
  · cases ended

/-- Whatever the map holds, the loop ends, what it returns is the answer of
`getLocalPointTo`, and no local is visited in two of its turns. -/
theorem chasing_ends (facts : PointTo) (loc : Local) :
    (∃ final ∈ eval (turn facts.pointToSet loc) { cur := loc }, final.returned = some (getLocalPointTo facts loc)) ∧
    ∀ s t l, Reaches (turn facts.pointToSet loc) { cur := loc } s → Reaches₁ (turn facts.pointToSet loc) s t →
      visits facts.pointToSet s = some l → visits facts.pointToSet t ≠ some l := by
  constructor
  · obtain ⟨final, ended⟩ := ends_of_measure (left facts.pointToSet) (fun _ _ turned => turn_uses turned)
      ({ cur := loc } : Chasing)
    obtain ⟨reached, stopped⟩ := mem_eval.mp ended
    obtain ⟨l, returned⟩ := returned_of_end stopped
    have same : answer facts.pointToSet loc final = getLocalPointTo facts loc :=
      reaches_keeps (fun s => answer facts.pointToSet loc s = getLocalPointTo facts loc)
        (fun _ _ old turned => (turn_answer turned).trans old) rfl reached
    refine ⟨final, ended, ?_⟩
    rw [← same, answer, returned, Option.getD_some]
  · intro s t l _ later first
    refine visited_once (visits facts.pointToSet) (fun s => {l | l ∈ s.visitSet}) ?_ ?_ ?_ first later
    · intro s l here
      obtain ⟨_, ⟨_, new⟩, rfl⟩ := (visits_iff s).mp here
      exact new
    · intro s t l turned here
      obtain ⟨_, enters, rfl⟩ := (visits_iff s).mp here
      obtain ⟨_, ⟨_, _, _, rfl⟩ | ⟨stops, _⟩⟩ := turn_cases turned
      · exact Finset.mem_insert_self _ _
      · exact absurd enters stops
    · intro s t turned l old
      obtain ⟨_, ⟨_, _, _, rfl⟩ | ⟨_, rfl⟩⟩ := turn_cases turned
      · exact Finset.mem_insert_of_mem old
      · exact old

/-- `alias = first` before a loop of `first = second` and `second = first`. -/
def looping : AList fun _ : Local => Local :=
  ((AList.singleton ⟨"alias", 0⟩ ⟨"first", 1⟩).insert ⟨"first", 1⟩ ⟨"second", 2⟩).insert ⟨"second", 2⟩ ⟨"first", 1⟩

example : (List.range 5).map (fun n => (fun s : Option Chasing => s.bind (turn looping ⟨"alias", 0⟩))^[n]
    (some { cur := ⟨"alias", 0⟩ }) |>.bind (visits looping)) =
      [some ⟨"alias", 0⟩, some ⟨"first", 1⟩, some ⟨"second", 2⟩, none, none] := by decide

end JgreAnalysis.AliasChasing
