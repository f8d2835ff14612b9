import Mathlib.Data.List.Chain
import Mathlib.Data.List.Flatten

/-! Graphs read through call sites. A node lists its outgoing sites in order,
and following a site either yields the next node or fails. A failing site is
kept in the graph, because a program that fails half way has already done the
work in front of the failure. -/
namespace JgreAnalysis.SiteWalks

/-- The sites of every node, in the order they are read, and where each leads. -/
structure SiteGraph (α γ ε : Type) where
  sites : α → List γ
  follow : γ → Except ε α
  distinct : ∀ node, (sites node).Nodup

/-- One site, and the chain of sites that was followed to come to it. -/
abbrev Call (γ : Type) := List γ × γ

variable {α γ ε : Type} {G : SiteGraph α γ ε}

def Call.full (call : Call γ) : List γ := call.1 ++ [call.2]

/-- One node is joined to another by a site of the first. -/
def Edge (G : SiteGraph α γ ε) (node child : α) : Prop :=
  ∃ site ∈ G.sites node, G.follow site = .ok child

/-- The site `next` is one of the sites of the node that `site` leads to. -/
def Follows (G : SiteGraph α γ ε) (site next : γ) : Prop :=
  ∃ node, G.follow site = .ok node ∧ next ∈ G.sites node

/-- The nodes that a chain of sites leads through. -/
def nodes (G : SiteGraph α γ ε) (chain : List γ) : List α :=
  chain.filterMap fun site => (G.follow site).toOption

theorem nodes_append (first rest : List γ) : nodes G (first ++ rest) = nodes G first ++ nodes G rest :=
  List.filterMap_append

theorem nodes_cons (ok : G.follow site = .ok node) (chain : List γ) :
    nodes G (site :: chain) = node :: nodes G chain := by
  simp [nodes, ok, Except.toOption]

theorem mem_nodes : node ∈ nodes G chain ↔ ∃ site ∈ chain, G.follow site = .ok node := by
  simp only [nodes, List.mem_filterMap]
  refine exists_congr fun site => and_congr Iff.rfl ?_
  cases G.follow site <;> simp [Except.toOption]

/-- Linked sites lead through nodes joined by edges. Only the last site of a
linked chain can fail, so no edge is skipped. -/
theorem nodes_linked (linked : (site :: chain).IsChain (Follows G)) :
    (nodes G (site :: chain)).IsChain (Edge G) := by
  induction chain generalizing site with
  | nil => cases followed : G.follow site <;> simp [nodes, followed, Except.toOption]
  | cons next chain ih =>
    obtain ⟨⟨node, leads, member⟩, rest⟩ := List.isChain_cons_cons.mp linked
    rw [nodes_cons leads]
    refine List.isChain_cons.mpr ⟨?_, ih rest⟩
    intro child first
    cases goes : G.follow next with
    | error problem =>
      cases chain with
      | nil => simp [nodes, goes, Except.toOption] at first
      | cons after chain =>
        obtain ⟨⟨_, ok, _⟩, _⟩ := List.isChain_cons_cons.mp rest
        rw [goes] at ok
        cases ok
    | ok reached =>
      rw [nodes_cons goes] at first
      cases first
      exact ⟨next, member, goes⟩

/-- A linked chain whose last site leads somewhere fails nowhere. -/
theorem nodes_length (linked : (chain ++ [site]).IsChain (Follows G)) (leads : G.follow site = .ok node) :
    (nodes G (chain ++ [site])).length = (chain ++ [site]).length := by
  induction chain with
  | nil => simp [nodes, leads, Except.toOption]
  | cons first chain ih =>
    have ok : ∃ node, G.follow first = .ok node := by
      cases chain <;> obtain ⟨⟨reached, ok, _⟩, _⟩ := List.isChain_cons_cons.mp linked <;> exact ⟨reached, ok⟩
    obtain ⟨reached, ok⟩ := ok
    rw [List.cons_append, nodes_cons ok, List.length_cons, List.length_cons, ih linked.tail]

/-! ## Every call a bounded search can make -/

/-- The calls made below one site, in the order a plain depth-first search
makes them. A site that fails is reached even when no edge is left to follow,
because it fails before the next node is entered. -/
def plainCalls (G : SiteGraph α γ ε) : ℕ → List γ → γ → List (Call γ)
  | 0, chain, site => match G.follow site with
    | .error _ => [(chain, site)]
    | .ok _ => []
  | budget + 1, chain, site => (chain, site) :: match G.follow site with
    | .error _ => []
    | .ok node => (G.sites node).flatMap (plainCalls G budget (chain ++ [site]))

theorem plain_walk (call : Call γ) (listed : call ∈ plainCalls G budget chain site) :
    ∃ tail, call.full = chain ++ site :: tail ∧ (site :: tail).IsChain (Follows G) ∧
      ∀ node, G.follow call.2 = .ok node → tail.length < budget := by
  induction budget generalizing chain site with
  | zero =>
    simp only [plainCalls] at listed
    cases followed : G.follow site with
    | error problem =>
      simp only [followed, List.mem_singleton] at listed
      subst call
      exact ⟨[], rfl, .singleton _, fun node ok => by simp [followed] at ok⟩
    | ok node => simp [followed] at listed
  | succ budget ih =>
    simp only [plainCalls, List.mem_cons] at listed
    rcases listed with rfl | below
    · exact ⟨[], rfl, .singleton _, fun _ _ => Nat.succ_pos _⟩
    · cases followed : G.follow site with
      | error problem => simp [followed] at below
      | ok node =>
        simp only [followed, List.mem_flatMap] at below
        obtain ⟨next, member, below⟩ := below
        obtain ⟨tail, spelled, linked, short⟩ := ih below
        refine ⟨next :: tail, by simpa using spelled, .cons_cons ⟨node, followed, member⟩ linked, ?_⟩
        exact fun node ok => Nat.succ_lt_succ (short node ok)

/-- Calls listed below a site are made from chains that start as its own does. -/
theorem plain_below (listed : call ∈ plainCalls G budget chain site) : chain <+: call.1 := by
  obtain ⟨tail, spelled, _⟩ := plain_walk call listed
  have shorter : chain.length ≤ call.1.length := by
    have lengths := congrArg List.length spelled
    simp only [Call.full, List.length_append, List.length_cons, List.length_nil] at lengths
    omega
  exact List.prefix_of_prefix_length_le ⟨site :: tail, spelled.symm⟩ ⟨[call.2], rfl⟩ shorter

end JgreAnalysis.SiteWalks
