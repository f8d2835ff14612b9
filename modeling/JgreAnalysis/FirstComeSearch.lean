import Mathlib.Data.Finset.Union
import JgreAnalysis.BoundedReach
import JgreAnalysis.LoopLaws
import JgreAnalysis.SiteWalks

/-! Depth-bounded search that never enters a node twice. The search marks a
node the first time it comes to it, however little of the bound is left there,
so a later and shorter way to the same node is not taken again. What such a
search does is nevertheless simple to say: it scans, in order, the calls of
the plain search that are first to come to their node. The visits of the
recursion are the middle step between the two. -/
namespace JgreAnalysis.FirstComeSearch
open BoundedReach LoopLaws SiteWalks

/-- What the search does at a node it enters. It may end the whole search with
an answer or fail, and it marks exactly the entered node as seen. -/
structure Visitor (G : SiteGraph α γ ε) [DecidableEq α] (σ ρ : Type) where
  seen : σ → Finset α
  enter : List γ → α → StateT σ (Except ε) (Option ρ)
  enter_seen : enter chain node state = .ok (answer, next) → seen next = insert node (seen state)

variable {α γ ε σ ρ : Type} {G : SiteGraph α γ ε} [DecidableEq α]

/-- The recursion. The bound is spent by entering a node and not by following
a site, so a failing site fails even when the bound is used up. -/
def search (V : Visitor G σ ρ) : ℕ → List γ → γ → StateT σ (Except ε) (Option ρ)
  | 0, _, site => do
    let _ ← G.follow site
    pure none
  | budget + 1, chain, site => do
    let node ← G.follow site
    if node ∈ V.seen (← get) then pure none
    else match ← V.enter (chain ++ [site]) node with
      | some answer => pure (some answer)
      | none => (G.sites node).findSomeM? (search V budget (chain ++ [site]))

/-- The nodes that some calls lead to. -/
def targets (G : SiteGraph α γ ε) (calls : List (Call γ)) : Finset α :=
  (calls.filterMap fun call => (G.follow call.2).toOption).toFinset

/-- The calls made below a list of sites, each with what the earlier ones left
seen. -/
def visitAll (G : SiteGraph α γ ε) (visit : γ → Finset α → List (Call γ)) :
    List γ → Finset α → List (Call γ)
  | [], _ => []
  | site :: sites, seen =>
    visit site seen ++ visitAll G visit sites (seen ∪ targets G (visit site seen))

/-- The calls that lead the search to nodes it enters, or to a failure. -/
def visits (G : SiteGraph α γ ε) : ℕ → List γ → γ → Finset α → List (Call γ)
  | 0, chain, site, _ => plainCalls G 0 chain site
  | budget + 1, chain, site, seen => match G.follow site with
    | .error _ => [(chain, site)]
    | .ok node =>
      if node ∈ seen then []
      else (chain, site) :: visitAll G (visits G budget (chain ++ [site])) (G.sites node) (insert node seen)

/-- One round of the scan: the call is followed and its node entered. -/
def arrive (V : Visitor G σ ρ) (call : Call γ) : StateT σ (Except ε) (Option ρ) := do
  V.enter call.full (← G.follow call.2)

@[simp] theorem targets_nil : targets G [] = ∅ := rfl

@[simp] theorem targets_append (first rest : List (Call γ)) :
    targets G (first ++ rest) = targets G first ∪ targets G rest := by
  simp [targets]

theorem targets_cons (call : Call γ) (ok : G.follow call.2 = .ok node) (calls : List (Call γ)) :
    targets G (call :: calls) = insert node (targets G calls) := by
  simp [targets, ok, Except.toOption]

theorem mem_targets : node ∈ targets G calls ↔ ∃ call ∈ calls, G.follow call.2 = .ok node := by
  simp only [targets, List.mem_toFinset, List.mem_filterMap]
  refine exists_congr fun call => and_congr Iff.rfl ?_
  cases G.follow call.2 <;> simp [Except.toOption]

theorem arrive_ok (V : Visitor G σ ρ) (call : Call γ) (ok : G.follow call.2 = .ok node) :
    arrive V call = V.enter call.full node := by
  simp only [arrive, ok]
  rfl

theorem arrive_error (V : Visitor G σ ρ) (call : Call γ) (fails : G.follow call.2 = .error problem) (state : σ) :
    arrive V call state = .error problem := by
  simp only [arrive, fails]
  rfl

/-- A quiet scan has marked exactly the nodes its calls lead to. -/
theorem scan_seen (V : Visitor G σ ρ)
    (quiet : calls.findSomeM? (arrive V) state = .ok (none, final)) :
    V.seen final = V.seen state ∪ targets G calls := by
  refine loop_invariant (fun made reached => V.seen reached = V.seen state ∪ targets G made) ?_ calls [] (by simp) quiet
  intro before call reached next marked ran
  cases followed : G.follow call.2 with
  | error problem => simp [arrive_error V call followed] at ran
  | ok node =>
    rw [arrive_ok V call followed] at ran
    rw [V.enter_seen ran, marked, targets_append, targets_cons call followed]
    simp

theorem search_zero (V : Visitor G σ ρ) (chain : List γ) (site : γ) :
    search V 0 chain site = (visits G 0 chain site seen).findSomeM? (arrive V) := by
  funext state
  simp only [search, visits, plainCalls]
  cases followed : G.follow site with
  | error problem =>
    simp only [loop_cons]
    rw [arrive_error V (chain, site) followed]
    rfl
  | ok node => rfl

theorem search_error (V : Visitor G σ ρ) (chain : List γ) (fails : G.follow site = .error problem)
    (state : σ) : search V budget chain site state = .error problem := by
  cases budget <;> simp only [search, fails] <;> rfl

theorem search_seen (V : Visitor G σ ρ) (ok : G.follow site = .ok node) (old : node ∈ V.seen state) :
    search V (budget + 1) chain site state = .ok (none, state) := by
  simp only [search, ok]
  change (if node ∈ V.seen state then pure none else _ : StateT σ (Except ε) (Option ρ)) state = _
  rw [if_pos old]
  rfl

theorem search_fresh (V : Visitor G σ ρ) (ok : G.follow site = .ok node) (fresh : node ∉ V.seen state) :
    search V (budget + 1) chain site state =
      match V.enter (chain ++ [site]) node state with
      | .error problem => .error problem
      | .ok (some answer, next) => .ok (some answer, next)
      | .ok (none, next) => (G.sites node).findSomeM? (search V budget (chain ++ [site])) next := by
  simp only [search, ok]
  change (if node ∈ V.seen state then pure none else _ : StateT σ (Except ε) (Option ρ)) state = _
  rw [if_neg fresh]
  simp only [bind, StateT.bind, Except.bind]
  cases V.enter (chain ++ [site]) node state with
  | error problem => rfl
  | ok reply =>
    obtain ⟨answer, next⟩ := reply
    cases answer <;> rfl

/-- The recursive search with its shared memory is a plain scan of the calls it
visits, in order. -/
theorem search_eq_scan (V : Visitor G σ ρ) (budget : ℕ) (chain : List γ) (site : γ) (state : σ) :
    search V budget chain site state =
      (visits G budget chain site (V.seen state)).findSomeM? (arrive V) state := by
  induction budget generalizing chain site state with
  | zero => rw [search_zero]
  | succ budget ih =>
    have all (chain : List γ) (sites : List γ) (state : σ) :
        sites.findSomeM? (search V budget chain) state =
          (visitAll G (visits G budget chain) sites (V.seen state)).findSomeM? (arrive V) state := by
      induction sites generalizing state with
      | nil => rfl
      | cons site sites rest =>
        rw [loop_cons, ih, visitAll, loop_append]
        cases ran : (visits G budget chain site (V.seen state)).findSomeM? (arrive V) state with
        | error problem => rfl
        | ok reply =>
          obtain ⟨answer, next⟩ := reply
          cases answer with
          | some answer => rfl
          | none =>
            simp only
            rw [rest, scan_seen V ran]
    cases followed : G.follow site with
    | error problem =>
      simp only [search_error V chain followed, visits, followed, loop_cons]
      rw [arrive_error V (chain, site) followed]
    | ok node =>
      by_cases old : node ∈ V.seen state
      · simp only [search_seen V followed old, visits, followed, if_pos old]
        rfl
      · simp only [search_fresh V followed old, visits, followed, if_neg old, loop_cons]
        rw [arrive_ok V (chain, site) followed]
        simp only [Call.full]
        cases entered : V.enter (chain ++ [site]) node state with
        | error problem => rfl
        | ok reply =>
          obtain ⟨answer, next⟩ := reply
          cases answer with
          | some answer => rfl
          | none =>
            simp only
            rw [all, V.enter_seen entered]

/-! ## The shape of the visited calls -/

/-- A call visited by a whole list is visited in the round of one of its sites,
between what came before and after that round. -/
theorem mem_visitAll {visit : γ → Finset α → List (Call γ)} (member : call ∈ visitAll G visit sites seen) :
    ∃ site ∈ sites, ∃ before after,
      visitAll G visit sites seen = before ++ visit site (seen ∪ targets G before) ++ after ∧
      call ∈ visit site (seen ∪ targets G before) := by
  induction sites generalizing seen with
  | nil => cases member
  | cons site sites ih =>
    rcases List.mem_append.mp member with first | rest
    · exact ⟨site, List.mem_cons_self, [], visitAll G visit sites (seen ∪ targets G (visit site seen)),
        by simp [visitAll], by simpa using first⟩
    · obtain ⟨inner, member, before, after, split, found⟩ := ih rest
      refine ⟨inner, List.mem_cons_of_mem _ member, visit site seen ++ before, after, ?_, ?_⟩
      · simp only [visitAll, split, targets_append, Finset.union_assoc, List.append_assoc]
      · simpa only [targets_append, Finset.union_assoc] using found

/-- The round of one listed site, between what came before and after it. -/
theorem visitAll_split (visit : γ → Finset α → List (Call γ)) (member : site ∈ sites) (seen : Finset α) :
    ∃ before after, visitAll G visit sites seen = before ++ visit site (seen ∪ targets G before) ++ after := by
  induction sites generalizing seen with
  | nil => cases member
  | cons first sites ih =>
    rcases List.mem_cons.mp member with rfl | later
    · exact ⟨[], visitAll G visit sites (seen ∪ targets G (visit site seen)), by simp [visitAll]⟩
    · obtain ⟨before, after, split⟩ := ih later (seen ∪ targets G (visit first seen))
      refine ⟨visit first seen ++ before, after, ?_⟩
      simp only [visitAll, split, targets_append, Finset.union_assoc, List.append_assoc]

private theorem visit_covers {before visited after : List (Call γ)} (split : whole = before ++ visited ++ after)
    (covered : node ∈ (seen ∪ targets G before) ∪ targets G visited) : node ∈ seen ∪ targets G whole := by
  rw [split, targets_append, targets_append, ← Finset.union_assoc, ← Finset.union_assoc]
  exact Finset.mem_union_left _ covered

theorem visits_plain (visited : call ∈ visits G budget chain site seen) :
    call ∈ plainCalls G budget chain site := by
  induction budget generalizing chain site seen with
  | zero => exact visited
  | succ budget ih =>
    simp only [visits, plainCalls] at visited ⊢
    cases followed : G.follow site with
    | error problem => simpa [followed] using visited
    | ok node =>
      simp only [followed] at visited ⊢
      split at visited
      · cases visited
      · rcases List.mem_cons.mp visited with rfl | below
        · exact List.mem_cons_self
        · obtain ⟨next, member, _, _, _, found⟩ := mem_visitAll below
          exact List.mem_cons_of_mem _ (List.mem_flatMap.mpr ⟨next, member, ih found⟩)

theorem visits_below (visited : call ∈ visits G budget chain site seen) :
    chain ++ [site] <+: call.full := by
  obtain ⟨tail, spelled, _⟩ := plain_walk call (visits_plain visited)
  exact ⟨tail, by rw [spelled]; simp⟩

/-- Every visited call is made from a call visited before it. -/
theorem visits_parent (visited : call ∈ visits G budget chain site seen) :
    call = (chain, site) ∨ ∃ parent ∈ visits G budget chain site seen, parent.full = call.1 := by
  induction budget generalizing chain site seen with
  | zero =>
    simp only [visits, plainCalls] at visited
    split at visited
    · exact .inl (List.mem_singleton.mp visited)
    · cases visited
  | succ budget ih =>
    simp only [visits] at visited ⊢
    cases followed : G.follow site with
    | error problem =>
      simp only [followed, List.mem_singleton] at visited
      exact .inl visited
    | ok node =>
      simp only [followed] at visited ⊢
      split at visited
      · cases visited
      · rename_i fresh
        rw [if_neg fresh]
        rcases List.mem_cons.mp visited with rfl | below
        · exact .inl rfl
        · right
          obtain ⟨inner, _, before, after, split, found⟩ := mem_visitAll below
          rcases ih found with rfl | ⟨parent, member, spelled⟩
          · exact ⟨(chain, site), List.mem_cons_self, rfl⟩
          · refine ⟨parent, List.mem_cons_of_mem _ ?_, spelled⟩
            rw [split]
            exact List.mem_append_left _ (List.mem_append_right _ member)

/-- Two calls lead to different nodes. -/
def Apart (G : SiteGraph α γ ε) (first second : Call γ) : Prop :=
  ∀ node, G.follow first.2 = .ok node → G.follow second.2 ≠ .ok node

/-- Visited calls lead to nodes not seen before, each node once. -/
theorem visits_apart (budget : ℕ) (chain : List γ) (site : γ) (seen : Finset α) :
    (visits G budget chain site seen).Pairwise (Apart G) ∧ Disjoint (targets G (visits G budget chain site seen)) seen := by
  induction budget generalizing chain site seen with
  | zero =>
    simp only [visits, plainCalls]
    cases followed : G.follow site with
    | error problem => simp [targets, followed, Except.toOption]
    | ok node => simp
  | succ budget ih =>
    have all (sites : List γ) (seen : Finset α) :
        (visitAll G (visits G budget (chain ++ [site])) sites seen).Pairwise (Apart G) ∧
          Disjoint (targets G (visitAll G (visits G budget (chain ++ [site])) sites seen)) seen := by
      induction sites generalizing seen with
      | nil => simp [visitAll]
      | cons next sites rest =>
        simp only [visitAll]
        obtain ⟨apart, disjoint⟩ := ih (chain ++ [site]) next seen
        obtain ⟨restApart, restDisjoint⟩ :=
          rest (seen ∪ targets G (visits G budget (chain ++ [site]) next seen))
        rw [Finset.disjoint_union_right] at restDisjoint
        refine ⟨List.pairwise_append.mpr ⟨apart, restApart, ?_⟩, ?_⟩
        · intro first inFirst second inSecond node leads other
          exact Finset.disjoint_left.mp restDisjoint.2 (mem_targets.mpr ⟨second, inSecond, other⟩)
            (mem_targets.mpr ⟨first, inFirst, leads⟩)
        · rw [targets_append, Finset.disjoint_union_left]
          exact ⟨disjoint, restDisjoint.1⟩
    simp only [visits]
    cases followed : G.follow site with
    | error problem => simp [targets, followed, Except.toOption]
    | ok node =>
      simp only
      split
      · simp
      · rename_i fresh
        obtain ⟨apart, disjoint⟩ := all (G.sites node) (insert node seen)
        rw [Finset.disjoint_insert_right] at disjoint
        refine ⟨List.pairwise_cons.mpr ⟨?_, apart⟩, ?_⟩
        · intro call member other leads same
          rw [followed] at leads
          cases leads
          exact disjoint.1 (mem_targets.mpr ⟨call, member, same⟩)
        · rw [targets_cons (chain, site) followed, Finset.disjoint_insert_left]
          exact ⟨fresh, disjoint.2⟩

theorem visits_target (ok : G.follow site = .ok node) (room : 0 < budget) :
    node ∈ seen ∪ targets G (visits G budget chain site seen) := by
  cases budget with
  | zero => cases room
  | succ budget =>
    simp only [visits, ok]
    split
    · exact Finset.mem_union_left _ ‹_›
    · rw [targets_cons (chain, site) ok]
      simp

/-- A visited call with budget left has everything it can go to seen. -/
theorem visits_saturated {call : Call γ} (visited : call ∈ visits G budget chain site seen)
    (leads : G.follow call.2 = .ok node) (spare : call.full.length < chain.length + budget)
    (member : next ∈ G.sites node) (goes : G.follow next = .ok child) :
    child ∈ seen ∪ targets G (visits G budget chain site seen) := by
  induction budget generalizing chain site seen with
  | zero =>
    have deep := (visits_below visited).length_le
    simp only [List.length_append, List.length_singleton] at deep
    omega
  | succ budget ih =>
    simp only [visits] at visited ⊢
    cases followed : G.follow site with
    | error problem =>
      simp only [followed, List.mem_singleton] at visited
      subst call
      simp [followed] at leads
    | ok entered =>
      simp only [followed] at visited ⊢
      split at visited
      · cases visited
      · rename_i fresh
        rw [if_neg fresh, targets_cons (chain, site) followed, Finset.union_insert,
          ← Finset.insert_union]
        rcases List.mem_cons.mp visited with rfl | below
        · rw [followed] at leads
          cases leads
          have room : 0 < budget := by simpa [Call.full] using spare
          obtain ⟨before, after, split⟩ :=
            visitAll_split (visits G budget (chain ++ [site])) member (insert node seen)
          exact visit_covers split (visits_target goes room)
        · obtain ⟨inner, _, before, after, split, found⟩ := mem_visitAll below
          exact visit_covers split (ih found (by simp only [List.length_append, List.length_singleton]; omega))

/-! ## Visiting is keeping the first comers -/

/-- A call is admitted after the calls already kept when the call it is made
from was kept and no kept call leads to the same node. -/
def Admitted (G : SiteGraph α γ ε) (kept : List (Call γ)) (call : Call γ) : Prop :=
  (call.1 = [] ∨ ∃ parent ∈ kept, parent.full = call.1) ∧
    match G.follow call.2 with
    | .ok node => node ∉ targets G kept
    | .error _ => True

instance [DecidableEq γ] (kept : List (Call γ)) (call : Call γ) : Decidable (Admitted G kept call) :=
  @instDecidableAnd _ _ inferInstance (by split <;> infer_instance)

theorem admitted_failing (fails : G.follow site = .error problem)
    (made : chain = [] ∨ ∃ parent ∈ kept, parent.full = chain) : Admitted G kept (chain, site) :=
  ⟨made, by simp [fails]⟩

variable [DecidableEq γ]

/-- Of calls listed in order, those admitted after the ones kept before them. -/
def uncut (G : SiteGraph α γ ε) : List (Call γ) → List (Call γ) → List (Call γ)
  | _, [] => []
  | kept, call :: calls =>
    if Admitted G kept call then call :: uncut G (kept ++ [call]) calls else uncut G kept calls

theorem uncut_append (kept first rest : List (Call γ)) :
    uncut G kept (first ++ rest) = uncut G kept first ++ uncut G (kept ++ uncut G kept first) rest := by
  induction first generalizing kept with
  | nil => simp [uncut]
  | cons call first ih =>
    simp only [List.cons_append, uncut]
    split
    · rw [ih]
      simp
    · exact ih kept

/-- Below a call that was not kept nothing is kept. -/
theorem uncut_below_cut (trunk : List γ) (cut : ∀ call ∈ kept, ¬ trunk <+: call.full) (rooted : trunk ≠ [])
    (below : ∀ call ∈ calls, trunk <+: call.1) : uncut G kept calls = [] := by
  induction calls with
  | nil => rfl
  | cons call calls ih =>
    have orphan : ¬ Admitted G kept call := by
      rintro ⟨root | ⟨parent, member, spelled⟩, _⟩
      · exact rooted (List.prefix_nil.mp (root ▸ below call List.mem_cons_self))
      · exact cut parent member (spelled ▸ below call List.mem_cons_self)
    rw [uncut, if_neg orphan]
    exact ih fun call member => below call (List.mem_cons_of_mem _ member)

/-- The calls a search with memory visits are those of the plain enumeration
that are admitted after the ones kept before them. -/
theorem visits_eq_uncut (budget : ℕ) (chain : List γ) (site : γ) (kept : List (Call γ))
    (made : chain = [] ∨ ∃ parent ∈ kept, parent.full = chain)
    (new : ∀ call ∈ kept, ¬ chain ++ [site] <+: call.full) :
    uncut G kept (plainCalls G budget chain site) = visits G budget chain site (targets G kept) := by
  induction budget generalizing chain site kept with
  | zero =>
    simp only [visits, plainCalls]
    cases followed : G.follow site with
    | error problem => simp only [uncut, if_pos (admitted_failing followed made)]
    | ok node => rfl
  | succ budget ih =>
    have all (trunk : List γ) (sites : List γ) (apart : sites.Nodup) (kept : List (Call γ))
        (made : ∃ parent ∈ kept, parent.full = trunk)
        (new : ∀ site ∈ sites, ∀ call ∈ kept, ¬ trunk ++ [site] <+: call.full) :
        uncut G kept (sites.flatMap (plainCalls G budget trunk)) =
          visitAll G (visits G budget trunk) sites (targets G kept) := by
      induction sites generalizing kept with
      | nil => rfl
      | cons site sites rest =>
        obtain ⟨other, apart⟩ := List.nodup_cons.mp apart
        rw [List.flatMap_cons, uncut_append, visitAll,
          ih trunk site kept (.inr made) (new site List.mem_cons_self)]
        rw [rest apart, targets_append]
        · obtain ⟨parent, member, spelled⟩ := made
          exact ⟨parent, List.mem_append_left _ member, spelled⟩
        · intro next member call inKept through
          rcases List.mem_append.mp inKept with old | added
          · exact new next (List.mem_cons_of_mem _ member) call old through
          · have ends := List.prefix_of_prefix_length_le through (visits_below added) (by simp)
            have same : next = site := by simpa using ends.eq_of_length (by simp)
            exact other (same ▸ member)
    cases followed : G.follow site with
    | error problem => simp only [uncut, plainCalls, visits, followed, if_pos (admitted_failing followed made)]
    | ok node =>
      simp only [plainCalls, visits, followed, uncut]
      by_cases old : node ∈ targets G kept
      · rw [if_neg (fun admitted => by simp [Admitted, followed, old] at admitted), if_pos old]
        apply uncut_below_cut (chain ++ [site]) new (by simp)
        intro call member
        obtain ⟨next, _, listed⟩ := List.mem_flatMap.mp member
        exact plain_below listed
      · rw [if_pos ⟨made, by simpa [followed] using old⟩, if_neg old]
        have grown := all (chain ++ [site]) (G.sites node) (G.distinct node) (kept ++ [(chain, site)])
          ⟨(chain, site), by simp, rfl⟩ (by
            intro next _ call inKept through
            rcases List.mem_append.mp inKept with before | self
            · exact new call before ((List.prefix_append _ _).trans through)
            · have short := through.length_le
              simp [List.mem_singleton.mp self, Call.full] at short)
        rw [grown, targets_append, targets_cons (chain, site) followed]
        simp

/-! ## The calls a fresh search makes -/

/-- Calls of the plain enumeration from one site that are first to reach the
node they lead to. -/
def firstComers (G : SiteGraph α γ ε) (budget : ℕ) (site : γ) : List (Call γ) :=
  uncut G [] (plainCalls G budget [] site)

theorem firstComers_visits (budget : ℕ) (site : γ) :
    firstComers G budget site = visits G budget [] site ∅ :=
  visits_eq_uncut budget [] site [] (.inl rfl) (by simp)

/-- A search from a blank memory is a scan of the first comers. -/
theorem search_eq_first_comers (V : Visitor G σ ρ) (budget : ℕ) (site : γ) (state : σ)
    (blank : V.seen state = ∅) :
    search V budget [] site state = (firstComers G budget site).findSomeM? (arrive V) state := by
  rw [search_eq_scan, firstComers_visits, blank]

variable {budget : ℕ} {start : γ} {call : Call γ}

theorem firstComers_walk (made : call ∈ firstComers G budget start) :
    ∃ tail, call.full = start :: tail ∧ (start :: tail).IsChain (Follows G) ∧
      ∀ node, G.follow call.2 = .ok node → tail.length < budget := by
  rw [firstComers_visits] at made
  simpa using plain_walk call (visits_plain made)

theorem firstComers_parent (made : call ∈ firstComers G budget start) :
    call = ([], start) ∨ ∃ parent ∈ firstComers G budget start, parent.full = call.1 := by
  rw [firstComers_visits] at made ⊢
  exact visits_parent made

theorem firstComers_apart : (firstComers G budget start).Pairwise (Apart G) := by
  rw [firstComers_visits]
  exact (visits_apart budget [] start ∅).1

theorem firstComers_root (ok : G.follow start = .ok node) :
    ([], start) ∈ firstComers G (budget + 1) start := by
  rw [firstComers_visits]
  simp [visits, ok]

/-- A first comer with budget left has every node it can go to reached. -/
theorem firstComers_saturated (made : call ∈ firstComers G budget start)
    (leads : G.follow call.2 = .ok node) (spare : call.full.length < budget)
    (member : next ∈ G.sites node) (goes : G.follow next = .ok child) :
    child ∈ targets G (firstComers G budget start) := by
  rw [firstComers_visits] at made ⊢
  simpa using visits_saturated made leads (by simpa using spare) member goes

/-- Two first comers that lead to one node are the same call. -/
theorem firstComers_unique (made : call ∈ firstComers G budget start)
    (other : rival ∈ firstComers G budget start) (leads : G.follow call.2 = .ok node)
    (same : G.follow rival.2 = .ok node) : call = rival := by
  by_contra distinct
  have symmetric : Std.Symm (Apart G) := ⟨fun first second apart node leads other => apart node other leads⟩
  exact firstComers_apart.forall made other distinct node leads same

/-- A first comer that is not the root is made from a node joined to its own. -/
theorem firstComers_edge (ok : G.follow start = .ok root) (made : call ∈ firstComers G budget start)
    (leads : G.follow call.2 = .ok node) : node = root ∨
      ∃ parent ∈ firstComers G budget start, ∃ origin, G.follow parent.2 = .ok origin ∧ Edge G origin node ∧
        call.full.length = parent.full.length + 1 := by
  rcases firstComers_parent made with rfl | ⟨parent, member, spelled⟩
  · rw [ok] at leads
    cases leads
    exact .inl rfl
  · obtain ⟨tail, whole, linked, _⟩ := firstComers_walk made
    rw [← whole, Call.full, ← spelled, Call.full, List.append_assoc] at linked
    obtain ⟨⟨origin, goes, inside⟩, _⟩ := List.isChain_cons_cons.mp (List.isChain_append.mp linked).2.1
    refine .inr ⟨parent, member, origin, goes, ⟨call.2, inside, leads⟩, ?_⟩
    rw [spelled, Call.full, List.length_append, List.length_singleton]

theorem firstComers_depth (made : call ∈ firstComers G budget start) (leads : G.follow call.2 = .ok node) :
    1 ≤ call.full.length ∧ call.full.length ≤ budget := by
  obtain ⟨tail, spelled, _, short⟩ := firstComers_walk made
  have room := short node leads
  rw [spelled, List.length_cons]
  omega

/-- What is left of the bound at a node depends on the node alone. -/
theorem firstComers_spare (G : SiteGraph α γ ε) (budget : ℕ) (start : γ) (node : α) :
    ∃ left, ∀ call ∈ firstComers G budget start, G.follow call.2 = .ok node → left + call.full.length = budget + 1 := by
  by_cases reached : ∃ call ∈ firstComers G budget start, G.follow call.2 = .ok node
  · obtain ⟨call, made, leads⟩ := reached
    have between := firstComers_depth made leads
    refine ⟨budget + 1 - call.full.length, fun rival other same => ?_⟩
    rw [firstComers_unique other made same leads]
    omega
  · exact ⟨0, fun call made leads => absurd ⟨call, made, leads⟩ reached⟩

/-- What is left of the bound at each node falls by one along the edge by which
the node was reached, and where some is left all children are reached. -/
theorem firstComers_layers (budget : ℕ) (ok : G.follow start = .ok root) : ∃ spare : α → ℕ,
    spare root = budget + 1 ∧
    (∀ node ∈ targets G (firstComers G (budget + 1) start), 1 ≤ spare node ∧ spare node ≤ budget + 1) ∧
    (∀ node ∈ targets G (firstComers G (budget + 1) start), node ≠ root →
      ∃ parent ∈ targets G (firstComers G (budget + 1) start), Edge G parent node ∧ spare parent = spare node + 1) ∧
    ∀ node ∈ targets G (firstComers G (budget + 1) start), 2 ≤ spare node →
      ∀ child, Edge G node child → child ∈ targets G (firstComers G (budget + 1) start) := by
  choose spare spent using firstComers_spare G (budget + 1) start
  refine ⟨spare, ?_, ?_, ?_, ?_⟩
  · have first := spent root _ (firstComers_root ok) ok
    simp only [Call.full, List.nil_append, List.length_singleton] at first
    omega
  · intro node member
    obtain ⟨call, made, leads⟩ := mem_targets.mp member
    have total := spent node call made leads
    have between := firstComers_depth made leads
    omega
  · intro node member other
    obtain ⟨call, made, leads⟩ := mem_targets.mp member
    rcases firstComers_edge ok made leads with same | ⟨parent, before, origin, goes, edge, longer⟩
    · exact absurd same other
    · refine ⟨origin, mem_targets.mpr ⟨parent, before, goes⟩, edge, ?_⟩
      have total := spent node call made leads
      have above := spent origin parent before goes
      omega
  · rintro node member left child ⟨next, inside, goes⟩
    obtain ⟨call, made, leads⟩ := mem_targets.mp member
    have total := spent node call made leads
    exact firstComers_saturated made leads (by omega) inside goes

/-- The chain of a first comer leads along edges from the root to its node, and
is no longer than the bound. -/
theorem firstComers_chain (ok : G.follow start = .ok root) (made : call ∈ firstComers G budget start)
    (leads : G.follow call.2 = .ok node) : ∃ between, nodes G call.full = root :: between ∧
      between.length < budget ∧ (root :: between).IsChain (Edge G) ∧ (root :: between).getLast? = some node := by
  obtain ⟨tail, spelled, linked, short⟩ := firstComers_walk made
  have last : (nodes G call.full).getLast? = some node := by
    rw [Call.full, nodes_append]
    simp [nodes, leads, Except.toOption]
  have counted : (nodes G call.full).length = call.full.length :=
    nodes_length (by rw [← Call.full, spelled]; exact linked) leads
  have through : (nodes G call.full).IsChain (Edge G) := spelled ▸ nodes_linked linked
  have first : nodes G call.full = root :: nodes G tail := by rw [spelled, nodes_cons ok]
  rw [first] at last counted through
  rw [spelled, List.length_cons, List.length_cons, Nat.add_right_cancel_iff] at counted
  exact ⟨_, first, counted ▸ short node leads, through, last⟩

/-- First comers lead to nodes within reach of the bound. -/
theorem firstComers_reach (ok : G.follow start = .ok root) (made : call ∈ firstComers G budget start)
    (leads : G.follow call.2 = .ok node) : ReachedWithin (Edge G) budget root node := by
  obtain ⟨between, _, short, linked, last⟩ := firstComers_chain ok made leads
  exact ⟨between.length, short, steps_of_isChain between linked last⟩

/-- Where no site fails, every first comer leads to a node. -/
theorem firstComers_leads (total : ∀ node, ∀ site ∈ G.sites node, ∃ child, G.follow site = .ok child)
    (ok : G.follow start = .ok root) (made : call ∈ firstComers G budget start) :
    ∃ node, G.follow call.2 = .ok node := by
  obtain ⟨tail, spelled, linked, _⟩ := firstComers_walk made
  induction tail using List.reverseRecOn with
  | nil =>
    obtain ⟨_, last⟩ := List.append_inj' (spelled.trans (List.nil_append [start]).symm) rfl
    rw [List.singleton_inj.mp last]
    exact ⟨root, ok⟩
  | append_singleton tail site _ =>
    rw [← List.cons_append] at spelled linked
    obtain ⟨_, last⟩ := List.append_inj' spelled rfl
    obtain ⟨node, _, member⟩ := (List.isChain_append.mp linked).2.2 _ (List.getLast?_eq_some_getLast (by simp)) site rfl
    rw [List.singleton_inj.mp last]
    exact total node site member

/-- Every initial piece of a first comer's chain is a first comer. -/
theorem firstComers_prefix (after : List γ) (made : call ∈ firstComers G budget start)
    (split : call.full = before ++ site :: after) : (before, site) ∈ firstComers G budget start := by
  induction after using List.reverseRecOn generalizing call with
  | nil =>
    have same : call = (before, site) := by
      obtain ⟨first, last⟩ := List.append_inj' split rfl
      exact Prod.ext first (by simpa using last)
    exact same ▸ made
  | append_singleton after last ih =>
    have spelled : call.1 ++ [call.2] = (before ++ site :: after) ++ [last] := by simpa [Call.full] using split
    have made' := (List.append_inj' spelled rfl).1
    rcases firstComers_parent made with rfl | ⟨parent, member, shorter⟩
    · simp at made'
    · exact ih member (shorter.trans made')

/-- The chain of a first comer passes no node twice. -/
theorem firstComers_nodup (made : call ∈ firstComers G budget start) : (nodes G call.full).Nodup := by
  have piece (chain : List γ) (initial : chain <+: call.full) : (nodes G chain).Nodup := by
    induction chain using List.reverseRecOn with
    | nil => exact List.nodup_nil
    | append_singleton chain site ih =>
      have here : (chain, site) ∈ firstComers G budget start := by
        obtain ⟨after, split⟩ := initial
        exact firstComers_prefix after made (by simpa using split.symm)
      rw [nodes_append]
      refine List.nodup_append'.mpr ⟨ih ((List.prefix_append _ _).trans initial), ?_, ?_⟩
      · cases followed : G.follow site <;> simp [nodes, followed, Except.toOption]
      · intro node earlier last
        obtain ⟨old, member, goes⟩ := mem_nodes.mp earlier
        obtain ⟨_, self, leads⟩ := mem_nodes.mp last
        rw [List.mem_singleton.mp self] at leads
        obtain ⟨before, after, split⟩ := List.append_of_mem member
        have there : (before, old) ∈ firstComers G budget start :=
          firstComers_prefix (after ++ [site]) here (by simp [Call.full, split])
        have same := congrArg (List.length ∘ Prod.fst) (firstComers_unique here there leads goes)
        simp [split] at same
  exact piece _ (List.prefix_refl _)

end JgreAnalysis.FirstComeSearch
