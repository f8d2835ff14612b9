import Mathlib.Data.List.Basic
import Mathlib.Data.List.Forall2

/-! Loops that a body can leave early, over a state and with failure. They are
the library's `findSomeM?` in a state monad over `Except`; the laws below let a
proof step through such a loop without opening the monad. -/
namespace JgreAnalysis.LoopLaws

/-! ## Steps in a row -/

theorem bind_ok {first : Except ε α} {then_ : α → Except ε β} :
    (first >>= then_) = .ok result ↔ ∃ value, first = .ok value ∧ then_ value = .ok result := by
  cases first with
  | error problem =>
    constructor
    · intro ran
      cases ran
    · rintro ⟨_, ran, _⟩
      cases ran
  | ok value =>
    constructor
    · exact fun ran => ⟨value, rfl, ran⟩
    · rintro ⟨_, same, ran⟩
      cases same
      exact ran

theorem state_bind_ok {first : StateT σ (Except ε) α} {then_ : α → StateT σ (Except ε) β} :
    (first >>= then_) state = .ok result ↔
      ∃ value middle, first state = .ok (value, middle) ∧ then_ value middle = .ok result := by
  refine bind_ok.trans ⟨?_, ?_⟩
  · rintro ⟨⟨value, middle⟩, ran, rest⟩
    exact ⟨value, middle, ran, rest⟩
  · rintro ⟨value, middle, ran, rest⟩
    exact ⟨(value, middle), ran, rest⟩

theorem bind_error {first : Except ε α} {then_ : α → Except ε β} :
    (first >>= then_) = .error problem ↔
      first = .error problem ∨ ∃ value, first = .ok value ∧ then_ value = .error problem := by
  cases first with
  | error other =>
    constructor
    · intro failed
      cases failed
      exact .inl rfl
    · rintro (failed | ⟨_, ran, _⟩)
      · cases failed
        rfl
      · cases ran
  | ok value =>
    constructor
    · exact fun failed => .inr ⟨value, rfl, failed⟩
    · rintro (failed | ⟨_, same, failed⟩)
      · cases failed
      · cases same
        exact failed

theorem mapError_error {step : Except ε α} {wrap : ε → φ} :
    step.mapError wrap = .error problem ↔ ∃ cause, step = .error cause ∧ wrap cause = problem := by
  cases step <;> simp [Except.mapError]

/-- A step without a state leaves the state alone. -/
theorem lift_ok {step : Except ε α} : (liftM step : StateT σ (Except ε) α) state = .ok (value, next) ↔
    step = .ok value ∧ next = state := by
  cases step with
  | error problem =>
    constructor
    · intro ran
      cases ran
    · rintro ⟨ran, _⟩
      cases ran
  | ok value =>
    constructor
    · rintro ran
      cases ran
      exact ⟨rfl, rfl⟩
    · rintro ⟨same, rfl⟩
      cases same
      rfl

theorem mapError_ok {step : Except ε α} {wrap : ε → φ} : step.mapError wrap = .ok value ↔ step = .ok value := by
  cases step <;> simp [Except.mapError]

/-- A map over a list succeeds with what its step gives for each item. -/
theorem mapM_ok_iff (step : β → Except ε α) (items : List β) (values : List α) :
    items.mapM step = .ok values ↔ List.Forall₂ (fun item value => step item = .ok value) items values := by
  induction items generalizing values with
  | nil =>
    simp only [List.mapM_nil, List.forall₂_nil_left_iff, pure, Except.pure, Except.ok.injEq]
    exact eq_comm
  | cons item items ih =>
    simp only [List.mapM_cons, bind_ok, ih, List.forall₂_cons_left_iff]
    constructor
    · rintro ⟨value, first, rest, later, same⟩
      cases same
      exact ⟨value, rest, first, later, rfl⟩
    · rintro ⟨value, rest, first, later, rfl⟩
      exact ⟨value, first, rest, later, rfl⟩

/-- A step that succeeds for the good items only makes a map that succeeds when all
items are good. -/
theorem mapM_good_iff {step : β → Except ε α} {good : β → Prop} {value : β → α}
    (steps : ∀ item result, step item = .ok result ↔ good item ∧ value item = result) (items : List β) (values : List α) :
    items.mapM step = .ok values ↔ (∀ item ∈ items, good item) ∧ values = items.map value := by
  simp only [mapM_ok_iff, steps, List.forall₂_and_left]
  refine and_congr_right fun _ => ?_
  rw [← List.forall₂_map_left_iff (R := Eq), List.forall₂_eq_eq_eq]
  exact eq_comm

/-- A loop that either passes over an item or keeps a value for it ends with the
values of the items that it keeps, in order. -/
theorem collect_ok_iff {keeps : β → Bool} {passed : β → Prop} {kept : β → α → Prop}
    {step : β → Except ε (Option α)} (round : ∀ item reply, step item = .ok reply ↔
      (passed item ∧ keeps item = false ∧ reply = none) ∨
      (keeps item = true ∧ ∃ value, kept item value ∧ reply = some value)) (items : List β) (values : List α) :
    (do let replies ← items.mapM step; pure (replies.filterMap id) : Except ε (List α)) = .ok values ↔
      (∀ item ∈ items, keeps item = false → passed item) ∧ List.Forall₂ kept (items.filter keeps) values := by
  simp only [bind_ok, mapM_ok_iff, pure, Except.pure, Except.ok.injEq]
  induction items generalizing values with
  | nil =>
    simp only [List.forall₂_nil_left_iff, exists_eq_left, List.filterMap_nil, List.not_mem_nil, false_imp_iff,
      implies_true, List.filter_nil, true_and]
    exact eq_comm
  | cons item items ih =>
    simp only [List.forall₂_cons_left_iff, List.forall_mem_cons]
    cases keep : keeps item with
    | false =>
      rw [List.filter_cons_of_neg (by simp [keep]), and_assoc, ← ih]
      constructor
      · rintro ⟨_, ⟨reply, replies, stepped, later, rfl⟩, same⟩
        obtain ⟨skipped, _, rfl⟩ | ⟨kept, _⟩ := (round item reply).mp stepped
        · exact ⟨fun _ => skipped, replies, later, same⟩
        · cases keep.symm.trans kept
      · rintro ⟨skipped, replies, later, same⟩
        exact ⟨none :: replies, ⟨none, replies, (round item none).mpr (.inl ⟨skipped rfl, keep, rfl⟩), later, rfl⟩, same⟩
    | true =>
      rw [List.filter_cons_of_pos keep, List.forall₂_cons_left_iff]
      constructor
      · rintro ⟨_, ⟨reply, replies, stepped, later, rfl⟩, same⟩
        obtain ⟨_, lost, _⟩ | ⟨_, value, made, rfl⟩ := (round item reply).mp stepped
        · cases keep.symm.trans lost
        · obtain ⟨passed, others⟩ := (ih _).mp ⟨replies, later, rfl⟩
          exact ⟨⟨nofun, passed⟩, value, _, made, others, same.symm⟩
      · rintro ⟨⟨_, passed⟩, value, others, made, later, rfl⟩
        obtain ⟨replies, stepped, rfl⟩ := (ih others).mpr ⟨passed, later⟩
        exact ⟨some value :: replies, ⟨some value, replies, (round item _).mpr (.inr ⟨keep, value, made, rfl⟩), stepped, rfl⟩,
          rfl⟩

/-- What a map over a list returns comes from its items. -/
theorem mapM_mem {step : β → Except ε α} {items : List β} (ran : items.mapM step = .ok values) (member : value ∈ values) :
    ∃ item ∈ items, step item = .ok value := by
  induction items generalizing values with
  | nil =>
    cases ran
    cases member
  | cons item items ih =>
    rw [List.mapM_cons] at ran
    obtain ⟨first, stepped, rest⟩ := bind_ok.mp ran
    obtain ⟨others, mapped, listed⟩ := bind_ok.mp rest
    cases listed
    rcases List.mem_cons.mp member with rfl | later
    · exact ⟨item, List.mem_cons_self, stepped⟩
    · obtain ⟨other, inside, found⟩ := ih mapped later
      exact ⟨other, List.mem_cons_of_mem _ inside, found⟩

/-! ## Loops that can be left early -/

/-- One round of a loop that a body can leave early: a problem or an answer
ends the loop, and only an empty round hands its state to the next. -/
theorem loop_cons (body : β → StateT σ (Except ε) (Option ρ)) (item : β) (rest : List β) (state : σ) :
    (item :: rest).findSomeM? body state =
      match body item state with
      | .error problem => .error problem
      | .ok (some answer, next) => .ok (some answer, next)
      | .ok (none, next) => rest.findSomeM? body next := by
  simp only [List.findSomeM?_cons, bind, StateT.bind, Except.bind]
  cases body item state with
  | error problem => rfl
  | ok reply =>
    obtain ⟨answer, next⟩ := reply
    cases answer <;> rfl

theorem loop_append (body : β → StateT σ (Except ε) (Option ρ)) (first rest : List β) (state : σ) :
    (first ++ rest).findSomeM? body state =
      match first.findSomeM? body state with
      | .error problem => .error problem
      | .ok (some answer, next) => .ok (some answer, next)
      | .ok (none, next) => rest.findSomeM? body next := by
  induction first generalizing state with
  | nil => rfl
  | cons item first ih =>
    simp only [List.cons_append, loop_cons]
    cases ran : body item state with
    | error problem => rfl
    | ok reply =>
      obtain ⟨answer, next⟩ := reply
      cases answer with
      | none => exact ih next
      | some answer => rfl

theorem loop_flatMap (body : γ → StateT σ (Except ε) (Option ρ)) (expand : β → List γ)
    (items : List β) :
    (items.flatMap expand).findSomeM? body = items.findSomeM? fun item => (expand item).findSomeM? body := by
  funext state
  induction items generalizing state with
  | nil => rfl
  | cons item items ih =>
    rw [List.flatMap_cons, loop_append, loop_cons]
    cases (expand item).findSomeM? body state with
    | error problem => rfl
    | ok reply =>
      obtain ⟨answer, next⟩ := reply
      cases answer with
      | none => exact ih next
      | some answer => rfl

theorem loop_map (body : γ → StateT σ (Except ε) (Option ρ)) (f : β → γ) (items : List β) :
    (items.map f).findSomeM? body = items.findSomeM? fun item => body (f item) := by
  induction items with
  | nil => rfl
  | cons item items ih => simp only [List.map_cons, List.findSomeM?_cons, ih]

/-- What every empty round preserves holds after a loop that finds nothing. -/
theorem loop_invariant {body : β → StateT σ (Except ε) (Option ρ)} (holds : List β → σ → Prop)
    (round : ∀ before item state next, holds before state → body item state = .ok (none, next) →
      holds (before ++ [item]) next)
    (items : List β) (before : List β) (start : holds before state)
    (quiet : items.findSomeM? body state = .ok (none, final)) : holds (before ++ items) final := by
  induction items generalizing before state with
  | nil =>
    cases quiet
    simpa using start
  | cons item items ih =>
    rw [loop_cons] at quiet
    cases ran : body item state with
    | error problem => simp [ran] at quiet
    | ok reply =>
      obtain ⟨answer, next⟩ := reply
      cases answer with
      | some answer => simp [ran] at quiet
      | none =>
        simp only [ran] at quiet
        simpa using ih (before ++ [item]) (round before item state next start ran) quiet

/-- A loop fails only where a round fails. -/
theorem loop_total {body : β → StateT σ (Except ε) (Option ρ)} (items : List β)
    (total : ∀ item ∈ items, ∀ state, ∃ reply, body item state = .ok reply) (state : σ) :
    ∃ reply, items.findSomeM? body state = .ok reply := by
  induction items generalizing state with
  | nil => exact ⟨_, rfl⟩
  | cons item items ih =>
    rw [loop_cons]
    obtain ⟨⟨answer, next⟩, ran⟩ := total item List.mem_cons_self state
    simp only [ran]
    cases answer with
    | some answer => exact ⟨_, rfl⟩
    | none => exact ih (fun later member => total later (List.mem_cons_of_mem _ member)) next

/-- A loop that finds something stopped at one of its rounds. -/
theorem loop_found_iff (body : β → StateT σ (Except ε) (Option ρ)) :
    items.findSomeM? body state = .ok (some answer, final) ↔
      ∃ before item after middle, items = before ++ item :: after ∧
        before.findSomeM? body state = .ok (none, middle) ∧ body item middle = .ok (some answer, final) := by
  constructor
  · intro ran
    induction items generalizing state with
    | nil => cases ran
    | cons item items ih =>
      rw [loop_cons] at ran
      cases round : body item state with
      | error problem => simp [round] at ran
      | ok reply =>
        obtain ⟨found, next⟩ := reply
        cases found with
        | some found =>
          simp only [round] at ran
          exact ⟨[], item, items, state, rfl, rfl, round.trans ran⟩
        | none =>
          simp only [round] at ran
          obtain ⟨before, stop, after, middle, split, quiet, last⟩ := ih ran
          refine ⟨item :: before, stop, after, middle, by rw [split]; rfl, ?_, last⟩
          rw [loop_cons, round]
          exact quiet
  · rintro ⟨before, item, after, middle, rfl, quiet, last⟩
    rw [loop_append, quiet]
    simp only [loop_cons, last]

/-- A loop that fails, fails at one of its rounds. -/
theorem loop_failed_iff (body : β → StateT σ (Except ε) (Option ρ)) :
    items.findSomeM? body state = .error problem ↔
      ∃ before item after middle, items = before ++ item :: after ∧
        before.findSomeM? body state = .ok (none, middle) ∧ body item middle = .error problem := by
  constructor
  · intro ran
    induction items generalizing state with
    | nil => cases ran
    | cons item items ih =>
      rw [loop_cons] at ran
      cases round : body item state with
      | error cause =>
        simp only [round] at ran
        exact ⟨[], item, items, state, rfl, rfl, round.trans ran⟩
      | ok reply =>
        obtain ⟨found, next⟩ := reply
        cases found with
        | some found => simp [round] at ran
        | none =>
          simp only [round] at ran
          obtain ⟨before, stop, after, middle, split, quiet, fails⟩ := ih ran
          refine ⟨item :: before, stop, after, middle, by rw [split]; rfl, ?_, fails⟩
          rw [loop_cons, round]
          exact quiet
  · rintro ⟨before, item, after, middle, rfl, quiet, fails⟩
    rw [loop_append, quiet]
    simp only [loop_cons, fails]

/-- What every round keeps holds however the loop ends. -/
theorem loop_keeps {body : β → StateT σ (Except ε) (Option ρ)} (holds : σ → Prop) (items : List β)
    (round : ∀ item ∈ items, ∀ state answer next, holds state → body item state = .ok (answer, next) → holds next)
    (start : holds state) (ran : items.findSomeM? body state = .ok (answer, final)) : holds final := by
  induction items generalizing state with
  | nil =>
    cases ran
    exact start
  | cons item items ih =>
    rw [loop_cons] at ran
    cases first : body item state with
    | error problem => simp [first] at ran
    | ok reply =>
      obtain ⟨found, next⟩ := reply
      have kept := round item List.mem_cons_self state found next start first
      simp only [first] at ran
      cases found with
      | some found =>
        cases ran
        exact kept
      | none => exact ih (fun other member => round other (List.mem_cons_of_mem _ member)) kept ran

/-- The first item of a kind stands in one place of a list. -/
theorem first_split_unique {kind : β → Prop} (same : before ++ item :: after = first ++ stop :: rest)
    (here : kind item) (there : kind stop) (silent : ∀ earlier ∈ before, ¬ kind earlier)
    (quiet : ∀ earlier ∈ first, ¬ kind earlier) : before = first ∧ item = stop ∧ after = rest := by
  induction before generalizing first with
  | nil =>
    cases first with
    | nil => simpa using same
    | cons other first =>
      obtain ⟨rfl, _⟩ := List.cons.inj same
      exact absurd here (quiet item List.mem_cons_self)
  | cons other before ih =>
    cases first with
    | nil =>
      obtain ⟨rfl, _⟩ := List.cons.inj same
      exact absurd there (silent other List.mem_cons_self)
    | cons another first =>
      obtain ⟨rfl, tail⟩ := List.cons.inj same
      obtain ⟨rfl, rest⟩ := ih tail (fun earlier member => silent earlier (List.mem_cons_of_mem _ member))
        fun earlier member => quiet earlier (List.mem_cons_of_mem _ member)
      exact ⟨rfl, rest⟩

/-- An item with none of a kind before it stands before every item of the kind, or
is that item. -/
theorem quiet_split {kind : β → Prop} (same : before ++ stop :: after = first ++ item :: rest) (there : kind stop)
    (quiet : ∀ earlier ∈ first, ¬ kind earlier) : item ∈ before ∨ item = stop := by
  rcases List.append_eq_append_iff.mp same with ⟨gap, rfl, tail⟩ | ⟨gap, rfl, tail⟩
  · cases gap with
    | nil => exact .inr (List.cons.inj tail).1.symm
    | cons other gap =>
      obtain ⟨rfl, _⟩ := List.cons.inj tail
      exact absurd there (quiet stop (by simp))
  · cases gap with
    | nil => exact .inr (List.cons.inj tail).1
    | cons other gap =>
      obtain ⟨rfl, _⟩ := List.cons.inj tail
      exact .inl (by simp)

/-! ## Loops that run to their end -/

theorem each_cons (body : β → StateT σ (Except ε) PUnit) (item : β) (rest : List β) (state : σ) :
    (item :: rest).forM body state =
      match body item state with
      | .error problem => .error problem
      | .ok (_, next) => rest.forM body next := by
  simp only [List.forM_eq_forM, List.forM_cons, bind, StateT.bind, Except.bind]
  cases body item state <;> rfl

/-- What every round preserves holds after the loop. -/
theorem each_invariant {body : β → StateT σ (Except ε) PUnit} (holds : List β → σ → Prop)
    (round : ∀ before item state next, holds before state → body item state = .ok ((), next) →
      holds (before ++ [item]) next)
    (items : List β) (before : List β) (start : holds before state)
    (ran : items.forM body state = .ok ((), final)) : holds (before ++ items) final := by
  induction items generalizing before state with
  | nil =>
    cases ran
    simpa using start
  | cons item items ih =>
    rw [each_cons] at ran
    cases first : body item state with
    | error problem => simp [first] at ran
    | ok reply =>
      simp only [first] at ran
      simpa using ih (before ++ [item]) (round before item state reply.2 start first) ran

/-- What every round on an item of the list keeps holds after the loop. -/
theorem each_keeps {body : β → StateT σ (Except ε) PUnit} (holds : σ → Prop) (items : List β)
    (round : ∀ item ∈ items, ∀ state next, holds state → body item state = .ok ((), next) → holds next)
    (start : holds state) (ran : items.forM body state = .ok ((), final)) : holds final := by
  induction items generalizing state with
  | nil =>
    cases ran
    exact start
  | cons item items ih =>
    rw [each_cons] at ran
    cases first : body item state with
    | error problem => simp [first] at ran
    | ok reply =>
      simp only [first] at ran
      exact ih (fun other member => round other (List.mem_cons_of_mem _ member))
        (round item List.mem_cons_self state reply.2 start first) ran

/-- A loop that runs to its end runs each of its rounds. -/
theorem each_ran {body : β → StateT σ (Except ε) PUnit} {items : List β} (ran : items.forM body state = .ok reply)
    (member : item ∈ items) : ∃ reached next, body item reached = .ok next := by
  induction items generalizing state with
  | nil => cases member
  | cons first items ih =>
    rw [each_cons] at ran
    cases round : body first state with
    | error problem => simp [round] at ran
    | ok next =>
      simp only [round] at ran
      rcases List.mem_cons.mp member with rfl | later
      · exact ⟨state, next, round⟩
      · exact ih ran later

/-- A loop fails with the problem of one of its rounds. -/
theorem each_failed {body : β → StateT σ (Except ε) PUnit} (items : List β)
    (failed : items.forM body state = .error problem) :
    ∃ item ∈ items, ∃ reached, body item reached = .error problem := by
  induction items generalizing state with
  | nil => cases failed
  | cons item items ih =>
    rw [each_cons] at failed
    cases first : body item state with
    | error other =>
      simp only [first] at failed
      cases failed
      exact ⟨item, List.mem_cons_self, state, first⟩
    | ok reply =>
      simp only [first] at failed
      obtain ⟨later, member, reached, stops⟩ := ih failed
      exact ⟨later, List.mem_cons_of_mem _ member, reached, stops⟩

theorem each_total {body : β → StateT σ (Except ε) PUnit} (items : List β)
    (total : ∀ item ∈ items, ∀ state, ∃ reply, body item state = .ok reply) (state : σ) :
    ∃ reply, items.forM body state = .ok reply := by
  induction items generalizing state with
  | nil => exact ⟨_, rfl⟩
  | cons item items ih =>
    rw [each_cons]
    obtain ⟨reply, ran⟩ := total item List.mem_cons_self state
    simp only [ran]
    exact ih (fun later member => total later (List.mem_cons_of_mem _ member)) reply.2

/-- Where the state does not decide which rounds succeed, a loop runs to its end
when each of them does. -/
theorem each_ok_iff {body : β → StateT σ (Except ε) PUnit} {good : β → Prop} (holds : σ → Prop)
    (succeeds : ∀ item state, holds state → ((∃ reply, body item state = .ok reply) ↔ good item))
    (keeps : ∀ item state next, holds state → body item state = .ok ((), next) → holds next) (items : List β) (state : σ)
    (start : holds state) : (∃ reply, items.forM body state = .ok reply) ↔ ∀ item ∈ items, good item := by
  induction items generalizing state with
  | nil => exact ⟨fun _ item member => absurd member List.not_mem_nil, fun _ => ⟨_, rfl⟩⟩
  | cons item items ih =>
    rw [each_cons, List.forall_mem_cons, ← succeeds item state start]
    cases first : body item state with
    | error problem => simp
    | ok reply =>
      rw [← ih reply.2 (keeps item state reply.2 start first)]
      exact (and_iff_right ⟨reply, rfl⟩).symm

/-- A loop whose rounds only append to a list appends what they append, in a row. -/
theorem each_appends {body : β → StateT (List ρ) (Except ε) PUnit} (out : β → List ρ) (items : List β)
    (round : ∀ item ∈ items, ∀ found, body item found = .ok ((), found ++ out item)) (found : List ρ) :
    items.forM body found = .ok ((), found ++ items.flatMap out) := by
  induction items generalizing found with
  | nil =>
    rw [List.flatMap_nil, List.append_nil]
    rfl
  | cons item items ih =>
    rw [each_cons, round item List.mem_cons_self]
    simp only [ih (fun later member => round later (List.mem_cons_of_mem _ member)), List.flatMap_cons,
      List.append_assoc]

/-! ## Loops without a state -/

theorem plain_cons (body : β → Except ε (Option ρ)) (item : β) (rest : List β) :
    (item :: rest).findSomeM? body =
      match body item with
      | .error problem => .error problem
      | .ok (some answer) => .ok (some answer)
      | .ok none => rest.findSomeM? body := by
  simp only [List.findSomeM?_cons, bind, Except.bind]
  cases body item with
  | error problem => rfl
  | ok answer => cases answer <;> rfl

theorem plain_append (body : β → Except ε (Option ρ)) (first rest : List β) :
    (first ++ rest).findSomeM? body =
      match first.findSomeM? body with
      | .error problem => .error problem
      | .ok (some answer) => .ok (some answer)
      | .ok none => rest.findSomeM? body := by
  induction first with
  | nil => rfl
  | cons item first ih =>
    simp only [List.cons_append, plain_cons]
    cases body item with
    | error problem => rfl
    | ok answer =>
      cases answer with
      | none => exact ih
      | some answer => rfl

theorem plain_none_iff (body : β → Except ε (Option ρ)) (items : List β) :
    items.findSomeM? body = .ok none ↔ ∀ item ∈ items, body item = .ok none := by
  induction items with
  | nil => exact ⟨fun _ item member => absurd member List.not_mem_nil, fun _ => rfl⟩
  | cons item items ih =>
    rw [plain_cons, List.forall_mem_cons, ← ih]
    cases body item with
    | error problem => simp
    | ok answer => cases answer <;> simp

theorem plain_found_iff (body : β → Except ε (Option ρ)) (items : List β) (answer : ρ) :
    items.findSomeM? body = .ok (some answer) ↔ ∃ before item after, items = before ++ item :: after ∧
      (∀ earlier ∈ before, body earlier = .ok none) ∧ body item = .ok (some answer) := by
  constructor
  · intro found
    induction items with
    | nil => cases found
    | cons item items ih =>
      rw [plain_cons] at found
      cases round : body item with
      | error problem => simp [round] at found
      | ok reply =>
        cases reply with
        | some reply =>
          simp only [round] at found
          exact ⟨[], item, items, rfl, by simp, round.trans found⟩
        | none =>
          simp only [round] at found
          obtain ⟨before, stop, after, rfl, quiet, last⟩ := ih found
          exact ⟨item :: before, stop, after, rfl, List.forall_mem_cons.mpr ⟨round, quiet⟩, last⟩
  · rintro ⟨before, item, after, rfl, quiet, last⟩
    rw [plain_append, (plain_none_iff body before).mpr quiet]
    simp only [plain_cons, last]

theorem plain_total {body : β → Except ε (Option ρ)} (items : List β)
    (total : ∀ item ∈ items, ∃ reply, body item = .ok reply) : ∃ reply, items.findSomeM? body = .ok reply := by
  induction items with
  | nil => exact ⟨none, rfl⟩
  | cons item items ih =>
    obtain ⟨reply, ran⟩ := total item List.mem_cons_self
    rw [plain_cons, ran]
    cases reply with
    | some answer => exact ⟨some answer, rfl⟩
    | none => exact ih fun later member => total later (List.mem_cons_of_mem _ member)

/-- A body that agrees wherever another one succeeds makes a loop that agrees
wherever the other loop succeeds. -/
theorem plain_mono {body other : β → Except ε (Option ρ)} (items : List β)
    (agrees : ∀ item ∈ items, ∀ reply, body item = .ok reply → other item = .ok reply)
    (ran : items.findSomeM? body = .ok reply) : items.findSomeM? other = .ok reply := by
  induction items with
  | nil => exact ran
  | cons item items ih =>
    rw [plain_cons] at ran ⊢
    cases round : body item with
    | error problem => simp [round] at ran
    | ok answer =>
      rw [agrees item List.mem_cons_self answer round]
      rw [round] at ran
      cases answer with
      | some answer => exact ran
      | none => exact ih (fun later member => agrees later (List.mem_cons_of_mem _ member)) ran

/-- A loop whose rounds all succeed looks for the first answer. -/
theorem plain_answers {body : β → Except ε (Option ρ)} {answer : β → Option ρ} (items : List β)
    (answers : ∀ item ∈ items, body item = .ok (answer item)) :
    items.findSomeM? body = .ok (items.findSome? answer) :=
  plain_mono items (fun item member _ same => (answers item member).trans same) List.findSomeM?_pure

/-! ## Loops with items that fail -/

/-- The body fails for some items, and answers or passes over every other one. -/
structure FailsOrAnswers (body : β → Except ε (Option ρ)) (answer : β → Option ρ) (fails : β → Prop) : Prop where
  failing : ∀ item, fails item → ∃ problem, body item = .error problem
  answering : ∀ item, ¬ fails item → body item = .ok (answer item)

/-- Nothing fails up to the first item with an answer. -/
def ClearTo (answer : β → Option ρ) (fails : β → Prop) (items : List β) : Prop :=
  ∀ before item after, items = before ++ item :: after → (∀ earlier ∈ before, answer earlier = none) →
    answer item ≠ none → ∀ reached ∈ before ++ [item], ¬ fails reached

section
variable {body : β → Except ε (Option ρ)} {answer : β → Option ρ} {fails : β → Prop} {items : List β}
  (law : FailsOrAnswers body answer fails)
include law

theorem answered (ran : body item = .ok reply) : ¬ fails item ∧ answer item = reply := by
  by_cases bad : fails item
  · obtain ⟨problem, failed⟩ := law.failing item bad
    rw [failed] at ran
    cases ran
  · exact ⟨bad, Except.ok.inj ((law.answering item bad).symm.trans ran)⟩

theorem plain_clear (found : items.findSome? answer = some result) (clear : ClearTo answer fails items) :
    items.findSomeM? body = .ok (some result) := by
  obtain ⟨before, item, after, split, here, quiet⟩ := List.findSome?_eq_some_iff.mp found
  have fine := clear before item after split quiet (by simp [here])
  refine (plain_found_iff _ _ _).mpr ⟨before, item, after, split, fun earlier member => ?_, ?_⟩
  · rw [law.answering earlier (fine earlier (by simp [member])), quiet earlier member]
  · rw [law.answering item (fine item (by simp)), here]

/-- A loop fails at what stands in the way of the first answer. -/
theorem plain_unclear (unclear : ¬ ClearTo answer fails items) : ∃ problem, items.findSomeM? body = .error problem := by
  cases ran : items.findSomeM? body with
  | error problem => exact ⟨problem, rfl⟩
  | ok reply =>
    refine absurd ?_ unclear
    intro before item after split quiet here reached member
    cases reply with
    | none =>
      have listed : reached ∈ items := by
        rw [split]
        simpa [or_assoc] using Or.inl (List.mem_append.mp member)
      exact (answered law ((plain_none_iff _ _).mp ran reached listed)).1
    | some reply =>
      obtain ⟨first, stop, rest, other, silent, last⟩ := (plain_found_iff _ _ _).mp ran
      have there : answer stop ≠ none := by simp [(answered law last).2]
      obtain ⟨rfl, rfl, _⟩ := @first_split_unique _ _ _ _ _ _ _ (fun item => answer item ≠ none) (split.symm.trans other)
        here there (fun earlier inside => not_not.mpr (quiet earlier inside))
        fun earlier inside => not_not.mpr (answered law (silent earlier inside)).2
      rcases List.mem_append.mp member with inside | final
      · exact (answered law (silent reached inside)).1
      · cases List.mem_singleton.mp final
        exact (answered law last).1

/-- Where nothing answers, a loop finds nothing or fails. -/
theorem plain_silent (silent : items.findSome? answer = none) :
    items.findSomeM? body = .ok none ∨ ∃ problem, items.findSomeM? body = .error problem := by
  cases ran : items.findSomeM? body with
  | error problem => exact .inr ⟨problem, rfl⟩
  | ok reply =>
    cases reply with
    | none => exact .inl rfl
    | some reply =>
      obtain ⟨before, item, after, rfl, _, last⟩ := (plain_found_iff _ _ _).mp ran
      have quiet := List.findSome?_eq_none_iff.mp silent item (by simp)
      rw [(answered law last).2] at quiet
      cases quiet

end

end JgreAnalysis.LoopLaws
