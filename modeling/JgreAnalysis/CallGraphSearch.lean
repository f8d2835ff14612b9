import JgreAnalysis.ExitPointChecker
import JgreAnalysis.FirstComeSearch
import JgreAnalysis.ImplicitCallResolver

/-! The search for a vulnerable entry point. It walks the calls of a method down
to a bounded level, remembers the last binder insertion and whether an exit
point was seen, and reports as soon as it has both. The walk itself is the
first-come search over the call sites of the program. -/
namespace JgreAnalysis.CallGraphSearch
open SootModel ExitPointChecker ImplicitCallResolver
open LoopLaws SiteWalks FirstComeSearch

/-- The fields of one `CallGraphAnalysis`. -/
structure SearchState where
  visitSet : Finset SootMethod := ∅
  vul : Option VulnerableApiDesc := none
  containExitPoint : Bool := false
  deriving DecidableEq

/-- A check is noted: a new finding replaces the remembered one, and the flag
is never cleared. -/
def SearchState.note (found : Option VulnerableApiDesc × Bool) (st : SearchState) : SearchState :=
  { st with vul := found.1 <|> st.vul, containExitPoint := st.containExitPoint || found.2 }

def SearchState.verdict (st : SearchState) : Option VulnerableApiDesc :=
  if st.containExitPoint then st.vul else none

def SearchState.mark (mtd : SootMethod) (st : SearchState) : SearchState :=
  { st with visitSet := insert mtd st.visitSet }

abbrev Searching := StateT SearchState (Except ResolutionFailed)

variable (p : Program)

def checkOneMethod (mtd : SootMethod) : Searching (Option VulnerableApiDesc) := do
  let found ← check p mtd
  modify (SearchState.note found)
  pure (← get).verdict

/-- The methods that a non-interface invoke leads to. -/
def calledMethods (mtd : SootMethod) (inv : InvokeExpr) : Except ResolutionFailed (List SootMethod) := do
  let methods ←
    if isImplicitCall p inv then pure (KeyedSets.addAll id [] (resolve p inv mtd))
    else do pure [← p.resolve inv.methodRef]
  pure (p.hashOrder.arrange methods)

/-- One round of the loop over the statements of a body. The first callee with
an answer ends the round and the loop. -/
def callStatement (call : SootMethod → Searching (Option VulnerableApiDesc)) (mtd : SootMethod) (u : Stmt) :
    Searching (Option VulnerableApiDesc) :=
  match u.invokeExpr? with
  | some inv =>
    if inv.isInterface then pure none
    else do
      let methods ← calledMethods p mtd inv
      methods.findSomeM? call
  | none => pure none

/-- Every callee gets its own copy of the path, so a path only ever grows by
the methods entered on the way down. -/
def callGraphAnalysis : ℕ → SootMethod → List SootMethod → Searching (Option VulnerableApiDesc)
  | 0, _, _ => pure none
  | searchLev + 1, mtd, path => do
    if mtd ∈ (← get).visitSet then pure none
    else
      modify (SearchState.mark mtd)
      match ← checkOneMethod p mtd with
      | some vul => pure (some { vul with callChain := path ++ [mtd] })
      | none => (p.units mtd).findSomeM? fun u =>
        callStatement p (fun m => callGraphAnalysis searchLev m (path ++ [mtd])) mtd u

def analysisEntryPoint (lev : ℕ) (mtd : SootMethod) : Searching (Option VulnerableApiDesc) := do
  let vul ← callGraphAnalysis p lev mtd []
  pure (vul.map fun vul => { vul with entryPoint := some mtd })

/-- `analysisEntryPoint` on a fresh `CallGraphAnalysis(lev)`. -/
def freshAnalysis (lev : ℕ) (mtd : SootMethod) :
    Except ResolutionFailed (Option VulnerableApiDesc × SearchState) :=
  (analysisEntryPoint p lev mtd).run {}

/-! ## The call sites of a program -/

/-- What a method's body calls through one statement, in calling order. A call
that cannot be resolved stays in its place, because it fails there. -/
def calleesOf (mtd : SootMethod) (u : Stmt) : List (Except ResolutionFailed SootMethod) :=
  match u.invokeExpr? with
  | some inv =>
    if inv.isInterface then []
    else match calledMethods p mtd inv with
      | .ok methods => methods.map .ok
      | .error problem => [.error problem]
  | none => []

/-- A call site is what is called there and its place among the calls of the
body, so that two calls of one method are two sites. -/
abbrev CallSite := Except ResolutionFailed SootMethod × ℕ

def callGraph : SiteGraph SootMethod CallSite ResolutionFailed where
  sites mtd := ((p.units mtd).flatMap (calleesOf p mtd)).zipIdx
  follow := Prod.fst
  distinct mtd := by
    apply List.Nodup.of_map Prod.snd
    rw [List.zipIdx_map_snd]
    exact List.nodup_range'

/-- What entering a method does: mark it, check it, report the path to it. -/
def enterMethod (chain : List CallSite) (mtd : SootMethod) : Searching (Option VulnerableApiDesc) := do
  modify (SearchState.mark mtd)
  match ← checkOneMethod p mtd with
  | some vul => pure (some { vul with callChain := nodes (callGraph p) chain })
  | none => pure none

variable {p}

theorem checkOneMethod_error (fails : check p mtd = .error problem) (st : SearchState) :
    checkOneMethod p mtd st = .error problem := by
  simp only [checkOneMethod, fails]
  rfl

theorem checkOneMethod_ok (checked : check p mtd = .ok found) (st : SearchState) :
    checkOneMethod p mtd st = .ok ((st.note found).verdict, st.note found) := by
  simp only [checkOneMethod, checked]
  rfl

theorem enterMethod_error (fails : check p mtd = .error problem) (chain : List CallSite) (st : SearchState) :
    enterMethod p chain mtd st = .error problem := by
  unfold enterMethod
  have marked := checkOneMethod_error fails (st.mark mtd)
  simp only [modify, modifyGet, MonadStateOf.modifyGet, StateT.modifyGet, bind, StateT.bind, pure, Except.pure,
    Except.bind, marked]

/-- A checked method is marked and noted, and reported when that completes the
verdict. -/
theorem enterMethod_ok (checked : check p mtd = .ok found) (chain : List CallSite) (st : SearchState) :
    enterMethod p chain mtd st =
      .ok (((st.mark mtd).note found).verdict.map (fun vul => { vul with callChain := nodes (callGraph p) chain }),
        (st.mark mtd).note found) := by
  unfold enterMethod
  have marked := checkOneMethod_ok checked (st.mark mtd)
  simp only [modify, modifyGet, MonadStateOf.modifyGet, StateT.modifyGet, bind, StateT.bind, pure, Except.pure,
    Except.bind, marked]
  cases ((st.mark mtd).note found).verdict <;> rfl

variable (p)

def visitor : Visitor (callGraph p) SearchState VulnerableApiDesc where
  seen := SearchState.visitSet
  enter := enterMethod p
  enter_seen := by
    intro chain mtd st answer next entered
    cases checked : check p mtd with
    | error problem => simp [enterMethod_error checked] at entered
    | ok found =>
      rw [enterMethod_ok checked] at entered
      cases entered
      rfl

theorem visitor_enter : (visitor p).enter = enterMethod p := rfl

/-- One statement of a body does what the calls listed for it do in turn. -/
theorem callStatement_eq (call : SootMethod → Searching (Option VulnerableApiDesc)) (mtd : SootMethod) (u : Stmt) :
    callStatement p call mtd u = (calleesOf p mtd u).findSomeM? (fun callee => do call (← callee)) := by
  unfold callStatement calleesOf
  cases u.invokeExpr? with
  | none => rfl
  | some inv =>
    simp only
    split
    · rfl
    · cases called : calledMethods p mtd inv with
      | error problem => rfl
      | ok methods =>
        simp only [loop_map]
        rfl

/-- The recursion of the source is the first-come search over the call sites of
the program. -/
theorem callGraphAnalysis_eq_search (lev : ℕ) (mtd : SootMethod) (place : ℕ) (chain : List CallSite) :
    callGraphAnalysis p lev mtd (nodes (callGraph p) chain) = search (visitor p) lev chain (.ok mtd, place) := by
  induction lev generalizing mtd place chain with
  | zero => rfl
  | succ lev ih =>
    have path : nodes (callGraph p) chain ++ [mtd] = nodes (callGraph p) (chain ++ [(.ok mtd, place)]) := by
      rw [nodes_append]
      rfl
    have site (callee : Except ResolutionFailed SootMethod) (place' : ℕ) :
        search (visitor p) lev (chain ++ [(.ok mtd, place)]) (callee, place') =
          (do callGraphAnalysis p lev (← callee) (nodes (callGraph p) chain ++ [mtd])) := by
      cases callee with
      | ok callee => rw [path, ← ih]; rfl
      | error problem =>
        funext st
        exact search_error (visitor p) _ rfl st
    have leads : (callGraph p).follow (.ok mtd, place) = .ok mtd := rfl
    have body : (callGraph p).sites mtd = ((p.units mtd).flatMap (calleesOf p mtd)).zipIdx := rfl
    have calls : ((p.units mtd).findSomeM? fun u =>
          callStatement p (fun m => callGraphAnalysis p lev m (nodes (callGraph p) chain ++ [mtd])) mtd u) =
        ((callGraph p).sites mtd).findSomeM? (search (visitor p) lev (chain ++ [(.ok mtd, place)])) := by
      have placed : (p.units mtd).flatMap (calleesOf p mtd) = ((callGraph p).sites mtd).map Prod.fst := by
        rw [body, List.zipIdx_map_fst]
      simp only [callStatement_eq]
      rw [← loop_flatMap, placed, loop_map]
      have each : (fun next : CallSite => (do callGraphAnalysis p lev (← next.1) (nodes (callGraph p) chain ++ [mtd])
            : Searching (Option VulnerableApiDesc))) = search (visitor p) lev (chain ++ [(.ok mtd, place)]) :=
        funext fun next => (site next.1 next.2).symm
      rw [← each]
    funext st
    simp only [callGraphAnalysis]
    change (if mtd ∈ st.visitSet then pure none else _ : Searching (Option VulnerableApiDesc)) st = _
    by_cases old : mtd ∈ st.visitSet
    · rw [if_pos old, search_seen (visitor p) leads old]
      rfl
    · rw [if_neg old, search_fresh (visitor p) leads old]
      rw [visitor_enter]
      simp only [modify, modifyGet, MonadStateOf.modifyGet, StateT.modifyGet, bind, StateT.bind, pure, Except.pure,
        Except.bind]
      cases checked : check p mtd with
      | error problem => simp only [checkOneMethod_error checked, enterMethod_error checked]
      | ok found =>
        simp only [checkOneMethod_ok checked, enterMethod_ok checked]
        cases ((st.mark mtd).note found).verdict with
        | some vul => simp only [Option.map_some, ← path]; rfl
        | none => exact congrFun calls _

end JgreAnalysis.CallGraphSearch
