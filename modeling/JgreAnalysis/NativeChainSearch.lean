import Mathlib.Data.Set.Finite.Basic
import JgreAnalysis.ExhaustiveSearch
import JgreAnalysis.NativeCallGraph

/-! The search for a chain of native calls that ends in a global reference. It
follows edges down without a memory of where it has been, and looks whether an
edge is an exit only after the search below that edge came back empty. -/
namespace JgreAnalysis.NativeChainSearch
open SootModel NativeCallGraph
open ExhaustiveSearch LoopLaws Relation

/-- The exception of a recursion that went too deep. -/
structure RecursionError where
  deriving DecidableEq, Repr

def exitPoints : List String := [jgrMethodSignature]

variable (graph : CallGraph) (order : HashOrder Edge)

/-- The recursion fails where the interpreter's stack has no frame left for it.
Python takes an empty list for no result. -/
def walkCallGraph : ℕ → String → List Edge → Except RecursionError (Option (List Edge))
  | 0, _, _ => throw ⟨⟩
  | limit + 1, start, path => (order.arrange (getCallSet graph start)).findSomeM? fun call => do
    let simpleName := call.simpleName
    let curPath := path ++ [call]
    let ret ← walkCallGraph limit simpleName curPath
    if ret.any (· ≠ []) then pure ret
    else if simpleName ∈ exitPoints ∨ call.isExitPoint then pure (some curPath)
    else pure none

abbrev CallChains := AList fun _ : String => List Edge

/-- Analysis over its field `call_chains`. -/
abbrev Analysing := StateT CallChains (Except RecursionError)

def analysisCallChain (limit : ℕ) (start : String) : Analysing Unit := do
  match ← walkCallGraph graph order limit start [] with
  | some (call :: path) => modify fun callChains => callChains.insert start (call :: path)
  | _ => pure ()

/-- One item of `__save_results`. -/
def savedItem (item : String × List Edge) : String := item.1 ++ ": " ++ " -> ".intercalate (item.2.map Edge.simpleName)

/-- The chains in the order in which they were found. -/
def foundChains (callChains : CallChains) : List (String × List Edge) :=
  callChains.entries.reverse.map fun item => (item.1, item.2)

/-- What `__save_results` writes. -/
def savedText (callChains : CallChains) : String := "\n".intercalate ((foundChains callChains).map savedItem)

/-- The chains found from all entry points, and the text to be saved for them. -/
def runAnalysis (limit : ℕ) (entryPoints : List String) : Except RecursionError (CallChains × String) := do
  let (_, callChains) ← (entryPoints.forM (analysisCallChain graph order limit)).run ∅
  pure (callChains, savedText callChains)

/-! ## Exits and chains of recorded edges -/

/-- The edge ends a chain: it is flagged, or leads to the call that makes global
references. -/
def IsExit (call : Edge) : Prop := call.isExitPoint = true ∨ call.simpleName = "_JNIEnv::NewGlobalRef"

instance (call : Edge) : Decidable (IsExit call) := inferInstanceAs (Decidable (_ ∨ _))

/-- A non-empty list of edges, each recorded for the name that the one before it
leads to. -/
def EdgeChain (start : String) (path : List Edge) : Prop :=
  ∃ first rest, path = first :: rest ∧ first ∈ getCallSet graph start ∧
    path.IsChain fun call next => next ∈ getCallSet graph call.simpleName

def ExitReachable (start : String) : Prop :=
  ∃ path last, EdgeChain graph start path ∧ path.getLast? = some last ∧ IsExit last

/-! ## The walk as an exhaustive search -/

/-- What an edge offers the search: its function first, and then itself when it
is an exit. -/
def movesOf (call : Edge) : List (Move String Edge RecursionError) :=
  .descend call (.ok call.simpleName) :: if IsExit call then [.answer call] else []

def moves (start : String) : List (Move String Edge RecursionError) :=
  (order.arrange (getCallSet graph start)).flatMap movesOf

variable {graph order}

theorem isExit_iff (call : Edge) : (call.simpleName ∈ exitPoints ∨ call.isExitPoint = true) ↔ IsExit call := by
  simp only [exitPoints, List.mem_singleton, IsExit, jgrMethodSignature]
  exact or_comm

/-- The walk of the source is the exhaustive search, with the path so far in
front of what it finds. -/
theorem walkCallGraph_eq_dive (limit : ℕ) (start : String) (path : List Edge) :
    walkCallGraph graph order limit start path =
      (dive (moves graph order) (.error ⟨⟩) limit start).map (Option.map fun found => path ++ found.1 ++ [found.2]) := by
  induction limit generalizing start path with
  | zero => rfl
  | succ limit ih =>
    simp only [walkCallGraph, dive, moves]
    induction order.arrange (getCallSet graph start) with
    | nil => rfl
    | cons call calls rest =>
      rw [plain_cons, List.flatMap_cons, plain_append, rest, ih]
      simp only [isExit_iff, movesOf, plain_cons]
      cases below : dive (moves graph order) (.error ⟨⟩) limit call.simpleName with
      | error problem => simp [follow, bind, Except.bind, below, Except.map]
      | ok found =>
        rw [follow_ok _ below]
        cases found with
        | some found => simp [bind, Except.bind, Except.map, pure, Except.pure, Found.below]
        | none =>
          by_cases exit : IsExit call
          · simp [bind, Except.bind, Except.map, pure, Except.pure, exit, plain_cons, follow]
          · simp [bind, Except.bind, Except.map, pure, Except.pure, exit]

theorem edgeChain_cons (call : Edge) (rest : List Edge) : EdgeChain graph start (call :: rest) ↔
    call ∈ getCallSet graph start ∧ (rest = [] ∨ EdgeChain graph call.simpleName rest) := by
  constructor
  · rintro ⟨first, tail, same, member, linked⟩
    obtain ⟨rfl, rfl⟩ := List.cons.inj same
    refine ⟨member, ?_⟩
    cases rest with
    | nil => exact .inl rfl
    | cons next rest =>
      obtain ⟨here, linked⟩ := List.isChain_cons_cons.mp linked
      exact .inr ⟨next, rest, rfl, here, linked⟩
  · rintro ⟨member, rfl | ⟨next, rest, rfl, here, linked⟩⟩
    · exact ⟨call, [], rfl, member, .singleton call⟩
    · exact ⟨call, next :: rest, rfl, member, .cons_cons here linked⟩

theorem descend_mem_moves : .descend call target ∈ moves graph order start ↔
    call ∈ getCallSet graph start ∧ target = .ok call.simpleName := by
  simp only [moves, List.mem_flatMap, HashOrder.mem_arrange, movesOf, List.mem_cons, Move.descend.injEq]
  constructor
  · rintro ⟨other, member, ⟨rfl, rfl⟩ | exit⟩
    · exact ⟨member, rfl⟩
    · split at exit <;> simp at exit
  · rintro ⟨member, rfl⟩
    exact ⟨call, member, .inl ⟨rfl, rfl⟩⟩

theorem answer_mem_moves : .answer call ∈ moves graph order start ↔ call ∈ getCallSet graph start ∧ IsExit call := by
  simp only [moves, List.mem_flatMap, HashOrder.mem_arrange, movesOf, List.mem_cons]
  constructor
  · rintro ⟨other, member, found | exit⟩
    · cases found
    · split at exit
      · rename_i exits
        simp only [List.mem_singleton, Move.answer.injEq] at exit
        exact ⟨exit ▸ member, exit ▸ exits⟩
      · cases exit
  · rintro ⟨member, exit⟩
    exact ⟨call, member, .inr (by simp [exit])⟩

/-- The trails of the search are the chains of recorded edges that end in an
exit. -/
theorem trail_iff_chain (found : Found Edge) : Trail (moves graph order) start found ↔
    EdgeChain graph start (found.1 ++ [found.2]) ∧ IsExit found.2 := by
  constructor
  · intro trail
    induction trail with
    | answer member =>
      obtain ⟨recorded, exit⟩ := answer_mem_moves.mp member
      exact ⟨(edgeChain_cons _ _).mpr ⟨recorded, .inl rfl⟩, exit⟩
    | descend member _ ih =>
      obtain ⟨recorded, same⟩ := descend_mem_moves.mp member
      cases same
      exact ⟨(edgeChain_cons _ _).mpr ⟨recorded, .inr ih.1⟩, ih.2⟩
  · obtain ⟨way, last⟩ := found
    rintro ⟨chain, exit⟩
    induction way generalizing start with
    | nil =>
      obtain ⟨recorded, _⟩ := (edgeChain_cons _ _).mp chain
      exact .answer (answer_mem_moves.mpr ⟨recorded, exit⟩)
    | cons call way ih =>
      obtain ⟨recorded, empty | rest⟩ := (edgeChain_cons _ _).mp chain
      · simp at empty
      · have below : Trail (moves graph order) call.simpleName (way, last) := ih rest exit
        exact .descend (descend_mem_moves.mpr ⟨recorded, rfl⟩) below

theorem exitReachable_iff_trail (order : HashOrder Edge) (start : String) :
    ExitReachable graph start ↔ ∃ found, Trail (moves graph order) start found := by
  constructor
  · rintro ⟨path, last, chain, ends, exit⟩
    obtain ⟨way, rfl⟩ := List.getLast?_eq_some_iff.mp ends
    exact ⟨(way, last), (trail_iff_chain _).mpr ⟨chain, exit⟩⟩
  · rintro ⟨found, trail⟩
    obtain ⟨chain, exit⟩ := (trail_iff_chain found).mp trail
    exact ⟨_, found.2, chain, by simp, exit⟩

theorem walk_ok_iff (reply : Option (List Edge)) : walkCallGraph graph order limit start [] = .ok reply ↔
    ∃ found, dive (moves graph order) (.error ⟨⟩) limit start = .ok found ∧
      found.map (fun found => found.1 ++ [found.2]) = reply := by
  rw [walkCallGraph_eq_dive]
  cases dive (moves graph order) (.error ⟨⟩) limit start <;> simp [Except.map]

theorem walk_found (ran : walkCallGraph graph order limit start [] = .ok (some path)) :
    EdgeChain graph start path ∧ ∃ last, path.getLast? = some last ∧ IsExit last := by
  obtain ⟨reply, searched, same⟩ := (walk_ok_iff _).mp ran
  obtain ⟨found, rfl, rfl⟩ := Option.map_eq_some_iff.mp same
  obtain ⟨chain, exit⟩ := (trail_iff_chain found).mp (dive_sound searched).1
  exact ⟨chain, found.2, by simp, exit⟩

theorem walk_nothing (ran : walkCallGraph graph order limit start [] = .ok none) : ¬ ExitReachable graph start := by
  intro reachable
  obtain ⟨found, trail⟩ := (exitReachable_iff_trail order start).mp reachable
  obtain ⟨reply, searched, same⟩ := (walk_ok_iff _).mp ran
  cases Option.map_eq_none_iff.mp same
  exact absurd (dive_complete searched trail).2 (by simp)

/-- A path that is found is a chain of recorded edges to an exit, and where
nothing is found no exit is reachable. -/
theorem walkCallGraph_correct (graph : CallGraph) (order : HashOrder Edge) (limit : ℕ) (start : String) :
    (∀ path, walkCallGraph graph order limit start [] = .ok (some path) →
      EdgeChain graph start path ∧ ∃ last, path.getLast? = some last ∧ IsExit last) ∧
    (walkCallGraph graph order limit start [] = .ok none → ¬ ExitReachable graph start) := by
  constructor
  · intro path ran
    exact walk_found ran
  · intro ran
    exact walk_nothing ran

/-! ## When the analysis ends -/

variable (graph order)

/-- The walk goes on from one name to another: along a recorded edge that no
exit and no way to an exit comes in front of. -/
def Explores (name next : String) : Prop :=
  ∃ before call after, order.arrange (getCallSet graph name) = before ++ call :: after ∧ call.simpleName = next ∧
    ∀ earlier ∈ before, ¬ IsExit earlier ∧ ¬ ExitReachable graph earlier.simpleName

/-- No cycle of explored edges can be reached from the name. -/
def NoExploredCycle (start : String) : Prop :=
  ∀ name, ReflTransGen (Explores graph order) start name → ¬ TransGen (Explores graph order) name name

variable {graph order}

theorem yields_descend (call : Edge) :
    Yields (moves graph order) (.descend call (.ok call.simpleName)) ↔ ExitReachable graph call.simpleName := by
  rw [exitReachable_iff_trail order]
  constructor
  · rintro ⟨name, found, same, trail⟩
    cases same
    exact ⟨found, trail⟩
  · rintro ⟨found, trail⟩
    exact ⟨_, found, rfl, trail⟩

/-- No move of an edge comes to an answer exactly when the edge is no exit and
leads to none. -/
theorem barren_movesOf (order : HashOrder Edge) (call : Edge) : (∀ move ∈ movesOf call, ¬ Yields (moves graph order) move) ↔
    ¬ IsExit call ∧ ¬ ExitReachable graph call.simpleName := by
  rw [movesOf, List.forall_mem_cons, yields_descend, and_comm]
  refine and_congr ?_ Iff.rfl
  by_cases exit : IsExit call
  · simp [exit, Yields]
  · simp [exit]

/-- A descent in the moves of some edges is the first move of one of them. -/
theorem descend_split (calls : List Edge) (before : List (Move String Edge RecursionError))
    (split : calls.flatMap movesOf = before ++ .descend call target :: after) :
    ∃ earlier later, calls = earlier ++ call :: later ∧ before = earlier.flatMap movesOf ∧
      target = .ok call.simpleName := by
  induction calls generalizing before with
  | nil => simp at split
  | cons first calls ih =>
    rw [List.flatMap_cons, movesOf, List.cons_append] at split
    cases before with
    | nil =>
      obtain ⟨same, _⟩ := List.cons.inj split
      cases same
      exact ⟨[], calls, rfl, rfl, rfl⟩
    | cons move before =>
      obtain ⟨rfl, rest⟩ := List.cons.inj split
      by_cases exit : IsExit first
      · rw [if_pos exit] at rest
        cases before with
        | nil => cases (List.cons.inj rest).1
        | cons move before =>
          obtain ⟨rfl, beyond⟩ := List.cons.inj rest
          obtain ⟨earlier, later, rfl, rfl, known⟩ := ih before beyond
          exact ⟨first :: earlier, later, rfl, by simp [movesOf, exit], known⟩
      · rw [if_neg exit] at rest
        obtain ⟨earlier, later, rfl, rfl, known⟩ := ih before rest
        exact ⟨first :: earlier, later, rfl, by simp [movesOf, exit], known⟩

theorem tries_iff_explores (next name : String) :
    Tries (moves graph order) next name ↔ Explores graph order name next := by
  constructor
  · rintro ⟨before, call, after, split, fruitless⟩
    obtain ⟨earlier, later, listed, rfl, same⟩ := descend_split _ before split
    refine ⟨earlier, call, later, listed, (Except.ok.inj same).symm, fun edge member => ?_⟩
    apply (barren_movesOf order edge).mp
    intro move offered
    exact fruitless move (List.mem_flatMap.mpr ⟨edge, member, offered⟩)
  · rintro ⟨earlier, call, later, listed, rfl, barren⟩
    refine ⟨earlier.flatMap movesOf, call, _, by rw [moves, listed, List.flatMap_append, List.flatMap_cons]; rfl, ?_⟩
    intro move member
    obtain ⟨edge, inside, offered⟩ := List.mem_flatMap.mp member
    exact (barren_movesOf order edge).mpr (barren edge inside) move offered

/-- Every name that is reached by an edge is one of finitely many. -/
theorem explored_finite (start : String) : {name | ReflTransGen (Explores graph order) start name}.Finite := by
  have named : {name | ReflTransGen (Explores graph order) start name} ⊆
      insert start {name | name ∈ graph.entries.flatMap fun item => item.2.map Edge.simpleName} := by
    intro name reached
    rcases ReflTransGen.cases_tail reached with rfl | ⟨previous, _, before, call, after, listed, rfl, _⟩
    · exact Set.mem_insert _ _
    · have recorded : call ∈ getCallSet graph previous := order.mem_arrange.mp (by simp [listed])
      refine Set.mem_insert_of_mem _ (List.mem_flatMap.mpr ?_)
      cases found : graph.lookup previous with
      | none => simp [getCallSet, found] at recorded
      | some calls =>
        refine ⟨⟨previous, calls⟩, AList.mem_lookup_iff.mp found, List.mem_map.mpr ⟨call, ?_, rfl⟩⟩
        simpa [getCallSet, found] using recorded
  exact ((List.finite_toSet _).insert start).subset named

/-- The walk from a name finishes, given enough stack, exactly when no cycle of
explored edges can be reached from it. -/
theorem walk_finishes_iff (graph : CallGraph) (order : HashOrder Edge) (start : String) :
    (∃ limit found, walkCallGraph graph order limit start [] = .ok found) ↔ NoExploredCycle graph order start := by
  have known (name : String) (label : Edge) (target : Except RecursionError String)
      (member : .descend label target ∈ moves graph order name) : ∃ child, target = .ok child :=
    ⟨_, (descend_mem_moves.mp member).2⟩
  have walked : (∃ limit found, walkCallGraph graph order limit start [] = .ok found) ↔
      ∃ limit found, dive (moves graph order) (.error ⟨⟩) limit start = .ok found := by
    refine exists_congr fun limit => ?_
    rw [walkCallGraph_eq_dive]
    cases dive (moves graph order) (.error ⟨⟩) limit start <;> simp [Except.map]
  have backwards : Tries (moves graph order) = Function.swap (Explores graph order) := by
    funext next name
    exact propext (tries_iff_explores next name)
  have finite : {name | ReflTransGen (Function.swap (Explores graph order)) name start}.Finite := by
    simpa only [reflTransGen_swap] using explored_finite start
  rw [walked, dive_finishes_iff known, backwards, acc_iff_no_cycle finite, NoExploredCycle]
  simp only [reflTransGen_swap, transGen_swap]

theorem walk_deeper (more : limit ≤ deeper) (ran : walkCallGraph graph order limit start [] = .ok found) :
    walkCallGraph graph order deeper start [] = .ok found := by
  rw [walkCallGraph_eq_dive] at ran ⊢
  cases searched : dive (moves graph order) (.error ⟨⟩) limit start with
  | error problem => simp [searched, Except.map] at ran
  | ok reply => rw [dive_deeper more start reply searched, ← ran, searched]

theorem analysisCallChain_cases (graph : CallGraph) (order : HashOrder Edge) (limit : ℕ) (start : String)
    (chains : CallChains) :
    (∃ path, walkCallGraph graph order limit start [] = .ok (some path) ∧ ExitReachable graph start ∧
      analysisCallChain graph order limit start chains = .ok ((), chains.insert start path)) ∨
    (walkCallGraph graph order limit start [] = .ok none ∧ ¬ ExitReachable graph start ∧
      analysisCallChain graph order limit start chains = .ok ((), chains)) ∨
    ∃ problem, walkCallGraph graph order limit start [] = .error problem ∧
      analysisCallChain graph order limit start chains = .error problem := by
  unfold analysisCallChain
  cases ran : walkCallGraph graph order limit start [] with
  | error problem => exact .inr (.inr ⟨problem, rfl, rfl⟩)
  | ok found =>
    cases found with
    | none => exact .inr (.inl ⟨rfl, walk_nothing ran, rfl⟩)
    | some path =>
      obtain ⟨chain, last, ends, exit⟩ := walk_found ran
      cases path with
      | nil => cases ends
      | cons call path => exact .inl ⟨call :: path, rfl, ⟨_, last, chain, ends, exit⟩, rfl⟩

/-- When all entry points are analysed, each of their walks has finished, and
those that reach an exit have a chain. -/
theorem analysed (entryPoints : List String) (ran : entryPoints.forM (analysisCallChain graph order limit) ∅ = .ok ((), chains)) :
    (∀ ep ∈ entryPoints, ∃ found, walkCallGraph graph order limit ep [] = .ok found) ∧
    ∀ name, name ∈ chains ↔ name ∈ entryPoints ∧ ExitReachable graph name := by
  refine each_invariant (fun done reached => (∀ ep ∈ done, ∃ found, walkCallGraph graph order limit ep [] = .ok found) ∧
    ∀ name, name ∈ reached ↔ name ∈ done ∧ ExitReachable graph name) ?_ entryPoints [] (by simp) ran
  rintro before ep reached next ⟨finished, named⟩ ran
  rcases analysisCallChain_cases graph order limit ep reached with
    ⟨path, walked, reachable, step⟩ | ⟨walked, unreachable, step⟩ | ⟨_, _, step⟩
  · rw [step] at ran
    cases ran
    refine ⟨List.forall_mem_append.mpr ⟨finished, by simp [walked]⟩, fun name => ?_⟩
    rw [AList.mem_insert, named, List.mem_append, List.mem_singleton]
    constructor
    · rintro (rfl | ⟨member, exits⟩)
      · exact ⟨.inr rfl, reachable⟩
      · exact ⟨.inl member, exits⟩
    · rintro ⟨member | rfl, exits⟩
      · exact .inr ⟨member, exits⟩
      · exact .inl rfl
  · rw [step] at ran
    cases ran
    refine ⟨List.forall_mem_append.mpr ⟨finished, by simp [walked]⟩, fun name => ?_⟩
    rw [named, List.mem_append, List.mem_singleton]
    constructor
    · exact fun ⟨member, exits⟩ => ⟨.inl member, exits⟩
    · rintro ⟨member | rfl, exits⟩
      · exact ⟨member, exits⟩
      · exact absurd exits unreachable
  · rw [step] at ran
    cases ran

theorem walk_of_run (entryPoints : List String) (ran : runAnalysis graph order limit entryPoints = .ok reply)
    (member : ep ∈ entryPoints) : ∃ found, walkCallGraph graph order limit ep [] = .ok found := by
  simp only [runAnalysis, StateT.run, bind, Except.bind] at ran
  cases all : entryPoints.forM (analysisCallChain graph order limit) ∅ with
  | error problem => simp [all] at ran
  | ok final => exact (analysed entryPoints all).1 ep member

/-- Walks that finish on their own finish under one common limit. -/
theorem common_limit (entryPoints : List String)
    (each : ∀ ep ∈ entryPoints, ∃ limit found, walkCallGraph graph order limit ep [] = .ok found) :
    ∃ limit, ∀ ep ∈ entryPoints, ∃ found, walkCallGraph graph order limit ep [] = .ok found := by
  induction entryPoints with
  | nil => exact ⟨0, by simp⟩
  | cons ep entryPoints ih =>
    obtain ⟨⟨own, found, ran⟩, later⟩ := List.forall_mem_cons.mp each
    obtain ⟨rest, all⟩ := ih later
    refine ⟨max own rest, List.forall_mem_cons.mpr ⟨⟨found, walk_deeper (Nat.le_max_left own rest) ran⟩, ?_⟩⟩
    intro other member
    obtain ⟨found, ran⟩ := all other member
    exact ⟨found, walk_deeper (Nat.le_max_right own rest) ran⟩

/-- An analysis ends where the walks from all its entry points do, with a chain for
those that reach an exit. -/
theorem analysis_of_walks (entryPoints : List String)
    (walks : ∀ ep ∈ entryPoints, ∃ found, walkCallGraph graph order limit ep [] = .ok found) :
    ∃ callChains, runAnalysis graph order limit entryPoints = .ok (callChains, savedText callChains) ∧
      ∀ ep ∈ entryPoints, ep ∈ callChains ↔ ExitReachable graph ep := by
  have rounds (ep : String) (member : ep ∈ entryPoints) (chains : CallChains) :
      ∃ reply, analysisCallChain graph order limit ep chains = .ok reply := by
    rcases analysisCallChain_cases graph order limit ep chains with ⟨_, _, _, step⟩ | ⟨_, _, step⟩ | ⟨_, fails, _⟩
    · exact ⟨_, step⟩
    · exact ⟨_, step⟩
    · obtain ⟨found, walked⟩ := walks ep member
      rw [walked] at fails
      cases fails
  obtain ⟨⟨_, chains⟩, all⟩ := each_total entryPoints rounds ∅
  refine ⟨chains, bind_ok.mpr ⟨_, all, rfl⟩, fun ep member => ?_⟩
  rw [(analysed entryPoints all).2]
  exact and_iff_right member

/-- Every chain of an analysis is what the walk from its entry point found. -/
theorem chain_of_walk (entryPoints : List String) (ran : runAnalysis graph order limit entryPoints = .ok (chains, text)) :
    (∀ name, name ∈ chains ↔ name ∈ entryPoints ∧ ExitReachable graph name) ∧
    ∀ name path, chains.lookup name = some path → walkCallGraph graph order limit name [] = .ok (some path) := by
  obtain ⟨⟨_, final⟩, all, same⟩ := bind_ok.mp ran
  cases same
  refine ⟨(analysed entryPoints all).2, ?_⟩
  refine each_keeps (fun reached => ∀ name path, reached.lookup name = some path →
    walkCallGraph graph order limit name [] = .ok (some path)) entryPoints ?_ (by simp) all
  intro ep _ reached next kept stepped name path
  rcases analysisCallChain_cases graph order limit ep reached with ⟨own, walked, _, step⟩ | ⟨_, _, step⟩ | ⟨_, _, step⟩
  · rw [step] at stepped
    cases stepped
    by_cases here : name = ep
    · subst here
      rw [AList.lookup_insert]
      rintro ⟨⟩
      exact walked
    · rw [AList.lookup_insert_ne here]
      exact kept name path
  · rw [step] at stepped
    cases stepped
    exact kept name path
  · rw [step] at stepped
    cases stepped

/-- The text of an analysis lists its chains. -/
theorem saved_of_run (entryPoints : List String) (ran : runAnalysis graph order limit entryPoints = .ok (chains, text)) :
    text = savedText chains := by
  obtain ⟨⟨_, final⟩, _, same⟩ := bind_ok.mp ran
  cases same
  rfl

/-- The analysis finishes, with a chain for exactly the entry points that reach
an exit, exactly when no entry point leads into a cycle of explored edges. -/
theorem analysis_complete_iff (graph : CallGraph) (order : HashOrder Edge) (entryPoints : List String) :
    (∃ limit callChains text, runAnalysis graph order limit entryPoints = .ok (callChains, text) ∧
      ∀ ep ∈ entryPoints, ep ∈ callChains ↔ ExitReachable graph ep) ↔
    ∀ ep ∈ entryPoints, NoExploredCycle graph order ep := by
  constructor
  · rintro ⟨limit, callChains, text, ran, _⟩ ep member
    obtain ⟨found, walked⟩ := walk_of_run entryPoints ran member
    exact (walk_finishes_iff graph order ep).mp ⟨limit, found, walked⟩
  · intro acyclic
    obtain ⟨limit, walks⟩ := common_limit entryPoints fun ep member =>
      (walk_finishes_iff graph order ep).mpr (acyclic ep member)
    obtain ⟨callChains, ran, found⟩ := analysis_of_walks entryPoints walks
    exact ⟨limit, callChains, _, ran, found⟩

/-- A file with a function that calls itself. -/
def polling : Sources :=
  let poll := sampleFunction [unitNames] "android_poll"
  sampleSources (unitOf [definitionOf poll 1 [callOf poll]]) ["void android_poll() \x7b android_poll(); \x7d"]

/-- However much stack there is, the walk from `android_poll` uses it up. -/
theorem polling_never_finishes : ¬ ∃ limit callChains text,
    runAnalysis (addFiles polling ["f.cpp"]) insertionOrder limit ["android_poll"] = .ok (callChains, text) ∧
      ∀ ep ∈ ["android_poll"], ep ∈ callChains ↔ ExitReachable (addFiles polling ["f.cpp"]) ep := by
  rintro ⟨limit, callChains, text, ran, _⟩
  obtain ⟨found, walked⟩ := walk_of_run ["android_poll"] ran (List.mem_singleton_self _)
  have recorded : getCallSet (addFiles polling ["f.cpp"]) "android_poll" =
      [{ node := sampleFunction [unitNames] "android_poll" }] := by
    decide +kernel
  have again : Explores (addFiles polling ["f.cpp"]) insertionOrder "android_poll" "android_poll" :=
    ⟨[], _, [], recorded, by decide +kernel, by simp⟩
  exact (walk_finishes_iff _ insertionOrder "android_poll").mp ⟨limit, found, walked⟩ _ .refl (.single again)

end JgreAnalysis.NativeChainSearch
