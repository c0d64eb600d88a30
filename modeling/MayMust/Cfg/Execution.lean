import MayMust.Cfg.Graph

/-!
# Executions of a control-flow graph

An execution is a path of edge crossings. A crossing runs the transfer function of the source
node, finds the guard true, and runs the effects of the edge; it records the states in between,
so that conditions on a run can speak about them. A position is a node together with the state
in which the node is entered.

An assertion site is violated in a state at its node when the node's transfer function can run
from there to a state in which the obligation fails. The order is that of the analysis, which
seeds the site with `wp` of the transfer function applied to the negated obligation.
-/

namespace MayMust

open Library

/-- A node and the state in which it is entered. -/
structure Position where
  node : CfgNodeId
  state : State

/-- One crossing of an edge: the states before and after the source node's transfer function,
and the state in which the target is entered. -/
structure Crossing where
  edge : AbstractEdge
  pre : State
  mid : State
  post : State

/-- The crossing is one the graph allows. -/
structure Crossing.Valid (sem : Semantics) (cfg : AbstractCfg) (c : Crossing) : Prop where
  edge_mem : c.edge ∈ cfg.edges
  transfer : (cfg.transferAt c.edge.source).Run sem c.pre c.mid
  guard : c.edge.guard.Holds c.mid
  effects : Effects.Run sem c.edge.effects c.mid c.post

namespace AbstractCfg

/-- The crossing leads from one position to another. -/
def Crosses (cfg : AbstractCfg) (sem : Semantics) (c : Crossing) (p q : Position) : Prop :=
  c.Valid sem cfg ∧ p = ⟨c.edge.source, c.pre⟩ ∧ q = ⟨c.edge.target, c.post⟩

/-- The crossings are an execution from one position to another. -/
def Run (cfg : AbstractCfg) (sem : Semantics) : List Crossing → Position → Position → Prop :=
  Path (cfg.Crosses sem)

end AbstractCfg

/-- A program point whose obligation is to be checked. -/
structure AssertionSite where
  id : ℕ
  node : CfgNodeId
  obligation : Formula
  location : String
  deriving DecidableEq

/-- Some run of the site node's transfer function from the state ends in a violation. -/
def AssertionSite.ViolatedFrom (site : AssertionSite) (sem : Semantics) (cfg : AbstractCfg)
    (s : State) : Prop :=
  ∃ s', (cfg.transferAt site.node).Run sem s s' ∧ ¬ site.obligation.Holds s'

/-- Some execution from the entry reaches the site in a state that violates its obligation. -/
def AssertionSite.Violable (site : AssertionSite) (sem : Semantics) (cfg : AbstractCfg) : Prop :=
  ∃ cs s₀ s, cfg.Run sem cs ⟨cfg.entry, s₀⟩ ⟨site.node, s⟩ ∧ site.ViolatedFrom sem cfg s

section Crossing

variable {sem : Semantics} {cfg : AbstractCfg} {c : Crossing} {cs : List Crossing}
  {p q : Position}

theorem Crossing.Valid.sameUndefined (h : c.Valid sem cfg) : c.pre.SameUndefined c.post :=
  (Effects.Run.sameUndefined h.transfer).trans h.effects.sameUndefined

theorem AbstractCfg.Run.sameUndefined (h : cfg.Run sem cs p q) :
    p.state.SameUndefined q.state := by
  refine Path.rel (R := fun p q ↦ p.state.SameUndefined q.state) (fun p ↦ .refl p.state)
    (fun _ _ _ ↦ State.SameUndefined.trans) (fun c _ p q hc ↦ ?_) h
  obtain ⟨hvalid, rfl, rfl⟩ := hc
  exact hvalid.sameUndefined

/-- Executions under fewer constraints are executions. -/
theorem Effects.Run.mono {sem' : Semantics} {es : List TransferEffect} {s s' : State}
    (hcallee : ∀ f s s', sem.callee f s s' → sem'.callee f s s')
    (htyped : sem'.wellTyped → sem.wellTyped) (h : Effects.Run sem es s s') :
    Effects.Run sem' es s s' :=
  Path.mono (fun _ _ _ _ ↦ TransferEffect.Step.mono hcallee htyped) h

theorem Crossing.Valid.mono {sem' : Semantics}
    (hcallee : ∀ f s s', sem.callee f s s' → sem'.callee f s s')
    (htyped : sem'.wellTyped → sem.wellTyped) (h : c.Valid sem cfg) : c.Valid sem' cfg where
  edge_mem := h.edge_mem
  transfer := Effects.Run.mono hcallee htyped h.transfer
  guard := h.guard
  effects := h.effects.mono hcallee htyped

end Crossing

end MayMust
