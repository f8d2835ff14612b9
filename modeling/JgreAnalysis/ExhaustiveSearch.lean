import Mathlib.Data.Fintype.Card
import JgreAnalysis.BoundedReach
import JgreAnalysis.LoopLaws

/-! Depth-first search without a memory. A node offers moves in order: to
descend to another node, or to stop with an answer. The search comes back with
the labels on its way to the first answer it meets. Where the depth runs out
it either turns back or fails, and the two cases bound the search or leave its
termination to the shape of the graph. -/
namespace JgreAnalysis.ExhaustiveSearch
open BoundedReach LoopLaws Relation

/-- A target that cannot be determined fails when the search descends to it. -/
inductive Move (α γ ε : Type) where
  | descend (label : γ) (target : Except ε α)
  | answer (label : γ)

variable {α γ ε : Type}

/-- The search came to an answer: the labels of the descents and of the answer. -/
abbrev Found (γ : Type) := List γ × γ

def Found.below (label : γ) (found : Found γ) : Found γ := (label :: found.1, found.2)

/-- One move, given what the search does at the node it leads to. -/
def follow (search : α → Except ε (Option (Found γ))) : Move α γ ε → Except ε (Option (Found γ))
  | .descend label target => do
    let found ← search (← target)
    pure (found.map (Found.below label))
  | .answer label => pure (some ([], label))

/-- The search, with what it does where no depth is left. -/
def dive (moves : α → List (Move α γ ε)) (floor : Except ε Unit) : ℕ → α → Except ε (Option (Found γ))
  | 0, _ => do
    floor
    pure none
  | depth + 1, node => (moves node).findSomeM? (follow (dive moves floor depth))

/-- Descents with these labels lead from the node to this answer. -/
inductive Trail (moves : α → List (Move α γ ε)) : α → Found γ → Prop where
  | answer : .answer label ∈ moves node → Trail moves node ([], label)
  | descend : .descend label (.ok child) ∈ moves node → Trail moves child found → Trail moves node (found.below label)

/-- One node is a descent away from another. -/
def Descends (moves : α → List (Move α γ ε)) (node child : α) : Prop :=
  ∃ label, .descend label (.ok child) ∈ moves node

variable {moves : α → List (Move α γ ε)} {floor : Except ε Unit}

theorem follow_ok (search : α → Except ε (Option (Found γ))) (ran : search child = .ok found) :
    follow search (.descend label (.ok child)) = .ok (found.map (Found.below label)) := by
  simp only [follow, bind, Except.bind, ran]
  rfl

theorem follow_found (search : α → Except ε (Option (Found γ))) (move : Move α γ ε)
    (ran : follow search move = .ok (some found)) :
    (∃ label, move = .answer label ∧ found = ([], label)) ∨
    ∃ label child rest, move = .descend label (.ok child) ∧ search child = .ok (some rest) ∧ found = rest.below label := by
  cases move with
  | answer label =>
    cases ran
    exact .inl ⟨label, rfl, rfl⟩
  | descend label target =>
    cases target with
    | error problem => cases ran
    | ok child =>
      cases below : search child with
      | error problem => simp [follow, bind, Except.bind, below] at ran
      | ok inner =>
        rw [follow_ok search below] at ran
        obtain ⟨rest, rfl, rfl⟩ := Option.map_eq_some_iff.mp (Except.ok.inj ran)
        exact .inr ⟨label, child, rest, rfl, below, rfl⟩

theorem follow_none (search : α → Except ε (Option (Found γ)))
    (ran : follow search (.descend label (.ok child)) = .ok none) : search child = .ok none := by
  cases below : search child with
  | error problem => simp [follow, bind, Except.bind, below] at ran
  | ok found =>
    rw [follow_ok search below] at ran
    rw [Option.map_eq_none_iff.mp (Except.ok.inj ran)]

/-- What the search finds is a trail that fits in the depth. -/
theorem dive_sound (ran : dive moves floor depth node = .ok (some found)) :
    Trail moves node found ∧ found.1.length < depth := by
  induction depth generalizing node found with
  | zero =>
    simp only [dive, bind, Except.bind] at ran
    cases floor <;> cases ran
  | succ depth ih =>
    obtain ⟨before, move, after, split, _, last⟩ := (plain_found_iff _ _ _).mp ran
    have member : move ∈ moves node := by simp [split]
    rcases follow_found _ move last with ⟨label, rfl, rfl⟩ | ⟨label, child, rest, rfl, below, rfl⟩
    · exact ⟨.answer member, Nat.succ_pos depth⟩
    · obtain ⟨trail, fits⟩ := ih below
      exact ⟨.descend member trail, Nat.succ_lt_succ fits⟩

/-- A search that finds nothing leaves only trails that do not fit in the
depth, and these only where it turns back at the floor. -/
theorem dive_complete (ran : dive moves floor depth node = .ok none) (trail : Trail moves node found) :
    depth ≤ found.1.length ∧ floor = .ok () := by
  induction depth generalizing node found with
  | zero =>
    cases floor with
    | error problem => cases ran
    | ok _ => exact ⟨Nat.zero_le _, rfl⟩
  | succ depth ih =>
    have quiet := (plain_none_iff _ _).mp ran
    cases trail with
    | answer member => cases quiet _ member
    | descend member below =>
      obtain ⟨long, turns⟩ := ih (follow_none _ (quiet _ member)) below
      exact ⟨Nat.succ_le_succ long, turns⟩

/-- A trail is a walk to a node that answers. -/
theorem Trail.steps (trail : Trail moves node found) :
    ∃ last, Steps (Descends moves) found.1.length node last ∧ .answer found.2 ∈ moves last := by
  induction trail with
  | answer member => exact ⟨_, .here _, member⟩
  | descend member _ ih =>
    obtain ⟨last, steps, answers⟩ := ih
    exact ⟨last, .step ⟨_, member⟩ steps, answers⟩

theorem trail_of_steps (steps : Steps (Descends moves) n node last) (answers : .answer label ∈ moves last) :
    ∃ way, Trail moves node (way, label) ∧ way.length = n := by
  induction steps with
  | here node => exact ⟨[], .answer answers, rfl⟩
  | step edge _ ih =>
    obtain ⟨first, member⟩ := edge
    obtain ⟨way, trail, counted⟩ := ih answers
    exact ⟨first :: way, .descend member trail, by simp [counted]⟩

/-! ## Bounded search -/

/-- Where every target is known and the search turns back at the floor, it
always finishes. -/
theorem dive_total (known : ∀ node label target, .descend label target ∈ moves node → ∃ child, target = .ok child)
    (depth : ℕ) (node : α) : ∃ found, dive moves (.ok ()) depth node = .ok found := by
  induction depth generalizing node with
  | zero => exact ⟨none, rfl⟩
  | succ depth ih =>
    have rounds (move : Move α γ ε) (member : move ∈ moves node) :
        ∃ found, follow (dive moves (.ok ()) depth) move = .ok found := by
      cases move with
      | answer label => exact ⟨_, rfl⟩
      | descend label target =>
        obtain ⟨child, rfl⟩ := known node label target member
        obtain ⟨found, ran⟩ := ih child
        exact ⟨_, follow_ok _ ran⟩
    exact plain_total (moves node) rounds

/-- A bounded search finds an answer exactly when a node within reach answers. -/
theorem dive_found_iff (known : ∀ node label target, .descend label target ∈ moves node → ∃ child, target = .ok child)
    (depth : ℕ) (node : α) : (∃ found, dive moves (.ok ()) depth node = .ok (some found)) ↔
      ∃ last, ReachedWithin (Descends moves) depth node last ∧ ∃ label, .answer label ∈ moves last := by
  constructor
  · rintro ⟨found, ran⟩
    obtain ⟨trail, fits⟩ := dive_sound ran
    obtain ⟨last, steps, answers⟩ := trail.steps
    exact ⟨last, ⟨_, fits, steps⟩, found.2, answers⟩
  · rintro ⟨last, ⟨n, fits, steps⟩, label, answers⟩
    obtain ⟨found, ran⟩ := dive_total known depth node
    cases found with
    | some found => exact ⟨found, ran⟩
    | none =>
      obtain ⟨way, trail, counted⟩ := trail_of_steps steps answers
      have long := (dive_complete ran trail).1
      rw [counted] at long
      omega

/-- All answers and failures within the depth, in the order of the moves. -/
def outcomes (moves : α → List (Move α γ ε)) : ℕ → α → List (Except ε γ)
  | 0, _ => []
  | depth + 1, node => (moves node).flatMap fun move =>
    match move with
    | .answer label => [.ok label]
    | .descend _ (.ok child) => outcomes moves depth child
    | .descend _ (.error problem) => [.error problem]

/-- What a loop over outcomes ends with. -/
def firstOutcome : List (Except ε γ) → Except ε (Option γ)
  | [] => .ok none
  | outcome :: _ => outcome.map some

theorem firstOutcome_append (first rest : List (Except ε γ)) : firstOutcome (first ++ rest) =
    match firstOutcome first with
    | .error problem => .error problem
    | .ok (some label) => .ok (some label)
    | .ok none => firstOutcome rest := by
  cases first with
  | nil => rfl
  | cons outcome first => cases outcome <;> rfl

/-- The bounded search ends with the first of all outcomes. -/
theorem dive_first (depth : ℕ) (node : α) :
    (dive moves (.ok ()) depth node).map (Option.map Prod.snd) = firstOutcome (outcomes moves depth node) := by
  induction depth generalizing node with
  | zero => rfl
  | succ depth ih =>
    rw [dive, outcomes]
    induction moves node with
    | nil => rfl
    | cons move rest later =>
      rw [plain_cons, List.flatMap_cons, firstOutcome_append, ← later]
      cases move with
      | answer label => rfl
      | descend label target =>
        cases target with
        | error problem => rfl
        | ok child =>
          rw [← ih child]
          cases below : dive moves (.ok ()) depth child with
          | error problem =>
            simp only [follow, bind, Except.bind, below]
            rfl
          | ok found =>
            rw [follow_ok _ below]
            cases found <;> rfl

/-! ## Unbounded search

With a failing floor the search finishes when some depth is enough. It tries a
descent only when nothing in front of it answers, and it finishes exactly when
no infinite run of such descents starts at the node. -/

/-- The move comes to an answer. -/
def Yields (moves : α → List (Move α γ ε)) : Move α γ ε → Prop
  | .answer _ => True
  | .descend _ target => ∃ child found, target = .ok child ∧ Trail moves child found

/-- The search descends from the node to the child, because no move in front of
that descent comes to an answer. -/
def Tries (moves : α → List (Move α γ ε)) (child node : α) : Prop :=
  ∃ before label after, moves node = before ++ .descend label (.ok child) :: after ∧
    ∀ earlier ∈ before, ¬ Yields moves earlier

theorem yields_of_found (ran : follow (dive moves floor depth) move = .ok (some found)) : Yields moves move := by
  rcases follow_found _ move ran with ⟨label, rfl, _⟩ | ⟨label, child, rest, rfl, below, _⟩
  · trivial
  · exact ⟨child, rest, rfl, (dive_sound below).1⟩

/-- A move that goes through with one search goes through with any search that
agrees where the first one finishes. -/
theorem follow_agrees {search other : α → Except ε (Option (Found γ))}
    (agrees : ∀ child found, search child = .ok found → other child = .ok found) (move : Move α γ ε)
    (found : Option (Found γ)) (ran : follow search move = .ok found) : follow other move = .ok found := by
  cases move with
  | answer label => exact ran
  | descend label target =>
    cases target with
    | error problem => cases ran
    | ok child =>
      cases below : search child with
      | error problem => simp [follow, bind, Except.bind, below] at ran
      | ok inner =>
        rw [follow_ok search below] at ran
        rw [follow_ok other (agrees child inner below), ran]

/-- A finished search finishes in the same way with more depth. -/
theorem dive_deeper (more : depth ≤ deeper) (node : α) (found : Option (Found γ))
    (ran : dive moves (.error problem) depth node = .ok found) :
    dive moves (.error problem) deeper node = .ok found := by
  induction depth generalizing node found deeper with
  | zero => cases ran
  | succ depth ih =>
    obtain ⟨deeper, rfl⟩ := Nat.exists_eq_add_of_le' (Nat.le_trans (Nat.succ_pos depth) more)
    exact plain_mono (moves node) (fun move _ => follow_agrees (ih (Nat.le_of_succ_le_succ more)) move) ran

theorem tries_of_finished (ran : dive moves (.error problem) (depth + 1) node = .ok found) (tried : Tries moves child node) :
    ∃ inner, dive moves (.error problem) depth child = .ok inner := by
  obtain ⟨before, label, after, split, fruitless⟩ := tried
  rw [dive, split, plain_append] at ran
  cases first : before.findSomeM? (follow (dive moves (.error problem) depth)) with
  | error failed => simp [first] at ran
  | ok answer =>
    cases answer with
    | some labels =>
      obtain ⟨earlier, move, rest, rfl, _, found⟩ := (plain_found_iff _ _ _).mp first
      exact absurd (yields_of_found found) (fruitless move (by simp))
    | none =>
      cases below : dive moves (.error problem) depth child with
      | ok inner => exact ⟨inner, rfl⟩
      | error failed => simp [first, follow, bind, Except.bind, below] at ran

/-- Where every tried child finishes, so does the loop over the moves of the node,
from any point to which nothing in front of it answers. -/
theorem loop_finishes (known : ∀ node label target, .descend label target ∈ moves node → ∃ child, target = .ok child)
    (tried : ∀ child, Tries moves child node → ∃ depth found, dive moves (.error problem) depth child = .ok found)
    (before after : List (Move α γ ε)) (split : moves node = before ++ after)
    (fruitless : ∀ earlier ∈ before, ¬ Yields moves earlier) :
    ∃ depth found, after.findSomeM? (follow (dive moves (.error problem) depth)) = .ok found := by
  induction after generalizing before with
  | nil => exact ⟨0, none, rfl⟩
  | cons move after later =>
    cases move with
    | answer label => exact ⟨0, some ([], label), rfl⟩
    | descend label target =>
      obtain ⟨child, rfl⟩ := known node label target (by simp [split])
      obtain ⟨depth, found, ran⟩ := tried child ⟨before, label, after, split, fruitless⟩
      cases found with
      | some found => exact ⟨depth, some (found.below label), by rw [plain_cons, follow_ok _ ran]; rfl⟩
      | none =>
        -- Without an answer below the child the loop goes on behind it.
        have barren : ¬ Yields moves (.descend label (.ok child)) := by
          rintro ⟨_, found, same, trail⟩
          cases same
          exact absurd (dive_complete ran trail).2 (by simp)
        obtain ⟨more, found, ended⟩ := later (before ++ [.descend label (.ok child)]) (by simp [split]) (by
          intro earlier member
          rcases List.mem_append.mp member with old | new
          · exact fruitless earlier old
          · exact List.mem_singleton.mp new ▸ barren)
        refine ⟨max depth more, found, ?_⟩
        rw [plain_cons, follow_ok _ (dive_deeper (Nat.le_max_left depth more) child none ran)]
        exact plain_mono after (fun move _ => follow_agrees (dive_deeper (Nat.le_max_right depth more)) move) ended

/-- The search finishes exactly at the nodes from which no infinite run of
tried descents starts. -/
theorem dive_finishes_iff (known : ∀ node label target, .descend label target ∈ moves node → ∃ child, target = .ok child) :
    (∃ depth found, dive moves (.error problem) depth node = .ok found) ↔ Acc (Tries moves) node := by
  constructor
  · rintro ⟨depth, found, ran⟩
    induction depth generalizing node found with
    | zero => cases ran
    | succ depth ih =>
      refine .intro node fun child tried => ?_
      obtain ⟨inner, below⟩ := tries_of_finished ran tried
      exact ih inner below
  · intro accessible
    induction accessible with
    | intro node _ ih =>
      obtain ⟨depth, found, ran⟩ := loop_finishes known ih [] (moves node) rfl (by simp)
      exact ⟨depth + 1, found, ran⟩

/-- Below a node with finitely many nodes below it every descent ends exactly when
none of them lies on a cycle. -/
theorem acc_iff_no_cycle {below : α → α → Prop} {root : α} (finite : {node | ReflTransGen below node root}.Finite) :
    Acc below root ↔ ∀ node, ReflTransGen below node root → ¬ TransGen below node node := by
  constructor
  · intro accessible node reached
    have ends : Acc (TransGen below) node := by
      induction reached using ReflTransGen.head_induction_on with
      | refl => exact accessible.transGen
      | head step _ ih => exact ih.inv (.single step)
    intro cycle
    clear reached
    induction ends with
    | intro node _ ih => exact ih node cycle cycle
  · intro acyclic
    have := finite.to_subtype
    let within (low high : {node | ReflTransGen below node root}) : Prop := TransGen below low.1 high.1
    have : IsTrans _ within := ⟨fun _ _ _ => TransGen.trans⟩
    have : Std.Irrefl within := ⟨fun node => acyclic node.1 node.2⟩
    have founded : WellFounded within := Finite.wellFounded_of_trans_of_irrefl within
    have each (node : {node | ReflTransGen below node root}) : Acc below node.1 := by
      induction founded.apply node with
      | intro node _ ih => exact .intro node.1 fun child step => ih ⟨child, .head step node.2⟩ (.single step)
    exact each ⟨root, .refl⟩

end JgreAnalysis.ExhaustiveSearch
