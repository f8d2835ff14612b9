import Mathlib.Data.List.Basic
import Mathlib.Data.List.DropRight

/-! Cutting blocks out of a stream of tokens. A token that opens starts a new
block, whatever was being collected, and a token that closes ends it; what is
still open at the end of the stream is dropped. -/
namespace JgreAnalysis.StatementCutter

variable {τ : Type} (opens closes : τ → Bool)

structure Cutting (τ : Type) where
  extracting : Bool := false
  block : List τ := []
  blocks : List (List τ) := []
  deriving DecidableEq, Repr

def Cutting.open (s : Cutting τ) (tk : τ) : Cutting τ :=
  if opens tk then { s with extracting := true, block := [] } else s

def Cutting.collect (s : Cutting τ) (tk : τ) : Cutting τ :=
  if s.extracting then
    if closes tk then { s with extracting := false, blocks := s.blocks ++ [s.block] }
    else { s with block := s.block ++ [tk] }
  else s

def Cutting.step (s : Cutting τ) (tk : τ) : Cutting τ := (s.open opens tk).collect closes tk

def Cutting.run (s : Cutting τ) (tokens : List τ) : Cutting τ := tokens.foldl (Cutting.step opens closes) s

/-- The blocks of a stream, in order. -/
def cut (tokens : List τ) : List (List τ) := (Cutting.run opens closes {} tokens).blocks

/-- A token that neither opens nor closes. -/
def Quiet (tk : τ) : Prop := opens tk = false ∧ closes tk = false

/-- The block of one statement, from its last opening token on. -/
def lastBlock : List τ → Option (List τ)
  | [] => none
  | tk :: rest => (lastBlock rest).or (if opens tk then some (tk :: rest) else none)

/-- The block that the token in one place of the stream ends, where that token
closes: it is cut from the tokens since the last one that closes. -/
def blockAt (tokens : List τ) (i : ℕ) : Option (List τ) :=
  if (tokens[i]?).any closes then lastBlock opens ((tokens.take i).rtakeWhile fun tk => !closes tk) else none

variable {opens closes}

theorem run_append (s : Cutting τ) (first rest : List τ) :
    s.run opens closes (first ++ rest) = (s.run opens closes first).run opens closes rest := by
  simp [Cutting.run]

theorem run_cons (s : Cutting τ) (tk : τ) (tokens : List τ) :
    s.run opens closes (tk :: tokens) = (s.step opens closes tk).run opens closes tokens := rfl

/-! ## One statement -/

theorem lastBlock_eq_none (statement : List τ) :
    lastBlock opens statement = none ↔ ∀ tk ∈ statement, opens tk = false := by
  induction statement with
  | nil => simp [lastBlock]
  | cons tk rest ih => simp [lastBlock, Option.or_eq_none_iff, ih, and_comm]

theorem lastBlock_eq_some (statement block : List τ) :
    lastBlock opens statement = some block ↔ ∃ before mention rest, statement = before ++ mention :: rest ∧
      opens mention = true ∧ (∀ tk ∈ rest, opens tk = false) ∧ block = mention :: rest := by
  induction statement with
  | nil => simp [lastBlock]
  | cons tk statement ih =>
    rw [lastBlock, Option.or_eq_some_iff, ih, lastBlock_eq_none]
    constructor
    · rintro (⟨before, mention, rest, rfl, opening, quiet, rfl⟩ | ⟨quiet, first⟩)
      · exact ⟨tk :: before, mention, rest, rfl, opening, quiet, rfl⟩
      · split at first
        · rename_i opening
          cases first
          exact ⟨[], tk, statement, rfl, opening, quiet, rfl⟩
        · cases first
    · rintro ⟨before, mention, rest, split, opening, quiet, rfl⟩
      cases before with
      | nil =>
        obtain ⟨rfl, rfl⟩ := List.cons.inj split
        exact .inr ⟨quiet, by simp [opening]⟩
      | cons first before =>
        obtain ⟨rfl, rfl⟩ := List.cons.inj split
        exact .inl ⟨before, mention, rest, rfl, opening, quiet, rfl⟩

/-- Tokens that do not close fill the block that is open, or the one that they
open last. -/
theorem run_statement (s : Cutting τ) {statement : List τ} (unclosed : ∀ tk ∈ statement, closes tk = false) :
    s.run opens closes statement = match lastBlock opens statement with
      | some block => { s with extracting := true, block := block }
      | none => if s.extracting then { s with block := s.block ++ statement } else s := by
  induction statement generalizing s with
  | nil => cases s; simp [Cutting.run, lastBlock]
  | cons tk statement ih =>
    obtain ⟨here, later⟩ := List.forall_mem_cons.mp unclosed
    rw [run_cons, ih _ later, lastBlock]
    cases lastBlock opens statement with
    | some block => 
      cases opening : opens tk <;> cases extracting : s.extracting <;>
        simp [Cutting.step, Cutting.open, Cutting.collect, opening, here, extracting]
    | none =>
      cases opening : opens tk <;> cases extracting : s.extracting <;>
        simp [Cutting.step, Cutting.open, Cutting.collect, opening, here, extracting]

/-! ## The blocks of a stream -/

/-- Two states that go on in the same way. -/
def SameOpen (s t : Cutting τ) : Prop := s.extracting = t.extracting ∧ (s.extracting = true → s.block = t.block)

theorem step_same (opens closes : τ → Bool) {s t : Cutting τ} (same : SameOpen s t) (tk : τ) :
    SameOpen (s.step opens closes tk) (t.step opens closes tk) ∧
    ∃ added, (s.step opens closes tk).blocks = s.blocks ++ added ∧ (t.step opens closes tk).blocks = t.blocks ++ added := by
  obtain ⟨extracting, block⟩ := same
  unfold SameOpen Cutting.step Cutting.open
  cases opens tk with
  | true => cases closing : closes tk <;> simp [Cutting.collect, closing]
  | false =>
    cases open_ : s.extracting with
    | true =>
      rw [open_] at extracting
      cases closing : closes tk <;> simp [Cutting.collect, closing, open_, ← extracting, block open_]
    | false =>
      rw [open_] at extracting
      simp [Cutting.collect, open_, ← extracting]

/-- The blocks that are cut from now on depend on the open block alone. -/
theorem run_same (opens closes : τ → Bool) {s t : Cutting τ} (same : SameOpen s t) (tokens : List τ) :
    ∃ added, (s.run opens closes tokens).blocks = s.blocks ++ added ∧
      (t.run opens closes tokens).blocks = t.blocks ++ added := by
  induction tokens generalizing s t with
  | nil => exact ⟨[], by simp [Cutting.run], by simp [Cutting.run]⟩
  | cons tk tokens ih =>
    obtain ⟨still, first, ours, theirs⟩ := step_same opens closes same tk
    obtain ⟨rest, later, others⟩ := ih still
    exact ⟨first ++ rest, by rw [run_cons, later, ours, List.append_assoc],
      by rw [run_cons, others, theirs, List.append_assoc]⟩

/-- Before the first opening token nothing is collected. -/
theorem cut_idle (closes : τ → Bool) {noise : List τ} (unopened : ∀ tk ∈ noise, opens tk = false) (after : List τ) :
    cut opens closes (noise ++ after) = cut opens closes after := by
  have idle : Cutting.run opens closes {} noise = {} := by
    induction noise with
    | nil => rfl
    | cons tk noise ih =>
      obtain ⟨here, later⟩ := List.forall_mem_cons.mp unopened
      have stepped : Cutting.step opens closes {} tk = {} := by simp [Cutting.step, Cutting.open, Cutting.collect, here]
      rw [run_cons, stepped, ih later]
  rw [cut, run_append, idle, cut]

/-- What is left open at the end is dropped. -/
theorem cut_unfinished {statement : List τ} (unclosed : ∀ tk ∈ statement, closes tk = false) :
    cut opens closes statement = [] := by
  rw [cut, run_statement _ unclosed]
  cases lastBlock opens statement <;> rfl

/-- A statement gives its block, and then the stream goes on as from its start. -/
theorem cut_statement {statement : List τ} (unclosed : ∀ tk ∈ statement, closes tk = false) (closing : closes stop = true)
    (unopened : opens stop = false) (after : List τ) :
    cut opens closes (statement ++ stop :: after) = (lastBlock opens statement).toList ++ cut opens closes after := by
  have ended : ∃ block, (Cutting.run opens closes {} statement).step opens closes stop =
      { block := block, blocks := (lastBlock opens statement).toList } := by
    rw [run_statement _ unclosed]
    cases lastBlock opens statement with
    | some block => exact ⟨block, by simp [Cutting.step, Cutting.open, Cutting.collect, unopened, closing]⟩
    | none => exact ⟨[], by simp [Cutting.step, Cutting.open, Cutting.collect, unopened]⟩
  obtain ⟨block, closed⟩ := ended
  have same : SameOpen ({ block := block, blocks := (lastBlock opens statement).toList } : Cutting τ) {} :=
    ⟨rfl, fun extracting => absurd extracting (by simp)⟩
  obtain ⟨added, ours, theirs⟩ := run_same opens closes same after
  rw [cut, run_append, run_cons, closed, ours, cut, theirs]
  rfl

/-- A stream is a statement that is not finished, or one that is closed and a
further stream. -/
theorem statement_induction (closes : τ → Bool) {motive : List τ → Prop}
    (unfinished : ∀ statement, (∀ tk ∈ statement, closes tk = false) → motive statement)
    (closed : ∀ statement stop after, (∀ tk ∈ statement, closes tk = false) → closes stop = true → motive after →
      motive (statement ++ stop :: after)) (tokens : List τ) : motive tokens := by
  by_cases stops : ∃ tk ∈ tokens, closes tk = true
  · obtain ⟨tk, member, closing⟩ := stops
    obtain ⟨stop, statement, after, unclosed, first, split, _⟩ := List.exists_of_eraseP member closing
    rw [split]
    exact closed statement stop after (by simpa using unclosed) first
      (statement_induction closes unfinished closed after)
  · exact unfinished tokens (by simpa using stops)
termination_by tokens.length
decreasing_by simp [split]; omega

/-! ## Where the blocks end -/

/-- What stands in front of a closing token has no part in the statement behind
it. -/
theorem rtakeWhile_closed (closing : closes stop = true) (first rest : List τ) :
    (first ++ stop :: rest).rtakeWhile (fun tk => !closes tk) = rest.rtakeWhile fun tk => !closes tk := by
  induction rest using List.reverseRecOn with
  | nil => simp [closing]
  | append_singleton rest tk ih =>
    rw [← List.cons_append, ← List.append_assoc, List.rtakeWhile_concat, List.rtakeWhile_concat, ih]

theorem rtakeWhile_unclosed {statement : List τ} (unclosed : ∀ tk ∈ statement, closes tk = false) (first : List τ) :
    (first ++ statement).rtakeWhile (fun tk => !closes tk) = first.rtakeWhile (fun tk => !closes tk) ++ statement := by
  have open_ : ∀ tk ∈ statement.reverse, (!closes tk) = true := by
    simpa using unclosed
  rw [List.rtakeWhile, List.reverse_append, List.takeWhile_append_of_pos open_, List.reverse_append, List.reverse_reverse,
    List.rtakeWhile]

/-- A closing token ends the statement that it stands behind. -/
theorem blockAt_split {statement : List τ} (unclosed : ∀ tk ∈ statement, closes tk = false) (closing : closes stop = true)
    (before after : List τ) : blockAt opens closes (before ++ statement ++ stop :: after) (before ++ statement).length =
      lastBlock opens (before.rtakeWhile (fun tk => !closes tk) ++ statement) := by
  have place : (before ++ statement ++ stop :: after)[(before ++ statement).length]? = some stop := by
    simp
  have front : (before ++ statement ++ stop :: after).take (before ++ statement).length = before ++ statement :=
    List.take_left
  rw [blockAt, place, front, rtakeWhile_unclosed unclosed, Option.any_some, if_pos closing]

theorem blockAt_after (closing : closes stop = true) (statement after : List τ) (i : ℕ) :
    blockAt opens closes (statement ++ stop :: after) (statement.length + 1 + i) = blockAt opens closes after i := by
  have place : (statement ++ stop :: after)[statement.length + 1 + i]? = after[i]? := by
    rw [List.getElem?_append_right (by omega)]
    have shifted : statement.length + 1 + i - statement.length = i + 1 := by omega
    rw [shifted, List.getElem?_cons_succ]
  have front : (statement ++ stop :: after).take (statement.length + 1 + i) = statement ++ stop :: after.take i := by
    have ahead : statement.length + 1 + i = statement.length + (i + 1) := by omega
    rw [ahead, List.take_length_add_append, List.take_succ_cons]
  rw [blockAt, blockAt, place, front, rtakeWhile_closed closing]

theorem blockAt_unclosed {statement : List τ} (unclosed : ∀ tk ∈ statement, closes tk = false)
    (inside : i < statement.length) (after : List τ) : blockAt opens closes (statement ++ after) i = none := by
  have quiet : closes statement[i] = false := unclosed _ (List.getElem_mem inside)
  simp [blockAt, List.getElem?_append_left inside, List.getElem?_eq_getElem inside, quiet]

/-- The blocks are those that the closing tokens end, in the order of these
tokens. -/
theorem cut_eq_blocks (disjoint : ∀ tk, opens tk = true → closes tk = false) (tokens : List τ) :
    cut opens closes tokens = (List.range tokens.length).filterMap (blockAt opens closes tokens) := by
  have none_inside {statement : List τ} (unclosed : ∀ tk ∈ statement, closes tk = false) (after : List τ) :
      (List.range statement.length).filterMap (blockAt opens closes (statement ++ after)) = [] := by
    rw [List.filterMap_eq_nil_iff]
    intro i listed
    exact blockAt_unclosed unclosed (List.mem_range.mp listed) after
  induction tokens using statement_induction closes with
  | unfinished statement unclosed =>
    rw [cut_unfinished unclosed]
    simpa using (none_inside unclosed []).symm
  | closed statement stop after unclosed closing ih =>
    have unopened : opens stop = false := by
      by_contra opening
      simp [disjoint stop (by simpa using opening)] at closing
    have places : List.range (statement ++ stop :: after).length =
        List.range statement.length ++ statement.length :: (List.range after.length).map (statement.length + 1 + ·) := by
      have total : (statement ++ stop :: after).length = statement.length + 1 + after.length := by
        rw [List.length_append, List.length_cons]
        omega
      rw [total, List.range_add, List.range_succ, List.append_assoc, List.singleton_append]
    have first : blockAt opens closes (statement ++ stop :: after) statement.length = lastBlock opens statement := by
      simpa using blockAt_split unclosed closing [] after
    have later : (List.range after.length).filterMap (blockAt opens closes (statement ++ stop :: after) ∘
        (statement.length + 1 + ·)) = cut opens closes after := by
      rw [ih]
      exact List.filterMap_congr fun i _ => blockAt_after closing statement after i
    rw [cut_statement unclosed closing unopened, places, List.filterMap_append, none_inside unclosed, List.nil_append,
      List.filterMap_cons, first, List.filterMap_map, later]
    cases lastBlock opens statement <;> rfl

/-- A closing token ends the block that the last opening token since the closing
one before it begins. -/
theorem blockAt_eq_some (disjoint : ∀ tk, opens tk = true → closes tk = false) (tokens : List τ) (i : ℕ) (block : List τ) :
    blockAt opens closes tokens i = some block ↔ ∃ before mention rest stop after,
      tokens = before ++ mention :: rest ++ stop :: after ∧ i = (before ++ mention :: rest).length ∧
      opens mention = true ∧ (∀ tk ∈ rest, Quiet opens closes tk) ∧ closes stop = true ∧ block = mention :: rest := by
  constructor
  · intro cut
    unfold blockAt at cut
    split at cut
    · rename_i stopped
      obtain ⟨stop, here, closing⟩ := (Option.any_eq_true _ _).mp stopped
      obtain ⟨inside, rfl⟩ := List.getElem?_eq_some_iff.mp here
      obtain ⟨own, mention, rest, split, opening, quiet, rfl⟩ := (lastBlock_eq_some _ _).mp cut
      obtain ⟨before, front⟩ : ∃ before, tokens.take i = before ++ mention :: rest := by
        refine ⟨(tokens.take i).rdropWhile (fun tk => !closes tk) ++ own, ?_⟩
        rw [List.append_assoc, ← split, List.rdropWhile_append_rtakeWhile]
      have unclosed (tk : τ) (member : tk ∈ rest) : closes tk = false := by
        have kept : tk ∈ (tokens.take i).rtakeWhile fun tk => !closes tk := by
          rw [split]
          exact List.mem_append_right _ (List.mem_cons_of_mem _ member)
        simpa using List.mem_rtakeWhile_imp kept
      refine ⟨before, mention, rest, tokens[i], tokens.drop (i + 1), ?_, ?_, opening,
        fun tk member => ⟨quiet tk member, unclosed tk member⟩, closing, rfl⟩
      · rw [← front, List.getElem_cons_drop inside, List.take_append_drop]
      · rw [← front, List.length_take_of_le (Nat.le_of_lt inside)]
    · cases cut
  · rintro ⟨before, mention, rest, stop, after, rfl, rfl, opening, quiet, closing, rfl⟩
    have unclosed : ∀ tk ∈ mention :: rest, closes tk = false :=
      List.forall_mem_cons.mpr ⟨disjoint mention opening, fun tk member => (quiet tk member).2⟩
    rw [blockAt_split unclosed closing]
    exact (lastBlock_eq_some _ _).mpr ⟨_, mention, rest, rfl, opening, fun tk member => (quiet tk member).1, rfl⟩

/-- What stands from an opening token to the next closing one is a block, and
every block is cut so. -/
theorem mem_cut_iff (disjoint : ∀ tk, opens tk = true → closes tk = false) (tokens block : List τ) :
    block ∈ cut opens closes tokens ↔ ∃ before mention rest stop after, tokens = before ++ mention :: rest ++ stop :: after ∧
      opens mention = true ∧ (∀ tk ∈ rest, Quiet opens closes tk) ∧ closes stop = true ∧ block = mention :: rest := by
  rw [cut_eq_blocks disjoint, List.mem_filterMap]
  constructor
  · rintro ⟨i, _, cut⟩
    obtain ⟨before, mention, rest, stop, after, split, _, ended⟩ := (blockAt_eq_some disjoint _ _ _).mp cut
    exact ⟨before, mention, rest, stop, after, split, ended⟩
  · rintro ⟨before, mention, rest, stop, after, split, ended⟩
    refine ⟨(before ++ mention :: rest).length, ?_, (blockAt_eq_some disjoint _ _ _).mpr
      ⟨before, mention, rest, stop, after, split, rfl, ended⟩⟩
    simp [split]

/-- A closing token ends a block when something has opened since the closing one
before it. -/
theorem blockAt_isSome (disjoint : ∀ tk, opens tk = true → closes tk = false) (tokens : List τ) (i : ℕ) :
    (∃ block, blockAt opens closes tokens i = some block) ↔ ∃ before mention rest stop after,
      tokens = before ++ mention :: rest ++ stop :: after ∧ i = (before ++ mention :: rest).length ∧
      opens mention = true ∧ (∀ tk ∈ rest, closes tk = false) ∧ closes stop = true := by
  constructor
  · rintro ⟨block, cut⟩
    obtain ⟨before, mention, rest, stop, after, split, place, opening, quiet, closing, _⟩ :=
      (blockAt_eq_some disjoint _ _ _).mp cut
    exact ⟨before, mention, rest, stop, after, split, place, opening, fun tk member => (quiet tk member).2, closing⟩
  · rintro ⟨before, mention, rest, stop, after, rfl, rfl, opening, unclosed, closing⟩
    have open_ : ∀ tk ∈ mention :: rest, closes tk = false := List.forall_mem_cons.mpr ⟨disjoint mention opening, unclosed⟩
    apply Option.ne_none_iff_exists'.mp
    rw [blockAt_split open_ closing, ne_eq, lastBlock_eq_none]
    intro silent
    simp [silent mention (by simp)] at opening

/-- An unfinished statement adds no block. -/
theorem cut_append_unclosed {unfinished : List τ} (unclosed : ∀ tk ∈ unfinished, closes tk = false) (first : List τ) :
    cut opens closes (first ++ unfinished) = cut opens closes first := by
  rw [cut, run_append, run_statement _ unclosed]
  cases lastBlock opens unfinished with
  | some block => rfl
  | none =>
    simp only
    split <;> rfl

end JgreAnalysis.StatementCutter
