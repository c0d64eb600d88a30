import Mathlib.Data.List.TakeWhile
import MayMust.Analysis.Loops.Checker

/-!
# Exit closure

An accepted invariant excludes the postcondition of every exit edge. The argument follows the
execution from the header to the first header with a supplied invariant, or to the exit if it
meets none. Up to there it takes no back edge and enters no summarised body, so the backward
states from the exit cover it; at the inner header the supplied invariant is among the seeds.

An inner loop without a supplied invariant is run through at most once by the backward pass, and
a summarised body that can be entered beside its header is not entered at all. The checks accept
invariants in both cases that executions break.
-/

namespace MayMust

open Library

/-- The effects that the transformer never loses a state over. -/
inductive TransferEffect.Scalar : TransferEffect → Prop
  | assign (target : Var) (value : Term) : Scalar (.assign target (.term value))
  | memoryStore (region : String) (offset value : Term) : Scalar (.memoryStore region offset value)
  | assume (condition : Formula) : Scalar (.assume condition)
  | obligation (condition : Formula) : Scalar (.obligation condition)
  | typeBound (condition : Formula) : Scalar (.typeBound condition)
  | nop : Scalar .nop

/-- Nodes and edges of the graph have such effects only. -/
structure AbstractCfg.Scalar (cfg : AbstractCfg) : Prop where
  node : ∀ n, ∀ e ∈ (cfg.transferAt n).effects, e.Scalar
  edge : ∀ e ∈ cfg.edges, ∀ f ∈ e.effects, f.Scalar

/-- An execution from the header through the body, without the loop's back edge, that leaves the
loop by an exit edge. -/
structure Traversal (info : LoopInfo) (cfg : AbstractCfg) (sem : Semantics) (cs : List Crossing)
    (exit : Crossing) (p q : Position) : Prop where
  run : cfg.Run sem (cs ++ [exit]) p q
  header_eq : p.node = info.header
  inside : ∀ c ∈ cs, c.edge.source ∈ info.body ∧ c.edge.target ∈ info.body
  once : ∀ c ∈ cs, c.edge.id ≠ info.backEdge
  leaves : exit.edge.id ∈ info.exitEdges

/-- Every back edge taken returns to a header with a supplied invariant that was visited before. -/
def IteratesSupplied (cfg : AbstractCfg) (inner : InnerInvariants) (cs : List Crossing) : Prop :=
  ∀ cs₁ c cs₂, cs = cs₁ ++ c :: cs₂ → c.edge.id ∈ cfg.detectBackEdges →
    (inner.at? c.edge.target).isSome ∧ ∃ d ∈ cs₁ ++ [c], d.edge.source = c.edge.target

/-- Summarised bodies are entered through their headers. -/
def EntersByHeader (info : LoopInfo) (cfg : AbstractCfg) (inner : InnerInvariants)
    (cs : List Crossing) : Prop :=
  ∀ cs₁ c cs₂, cs = cs₁ ++ c :: cs₂ → ∀ pair ∈ inner, pair.1 ∈ info.body →
    c.edge.source ∈ innerBody cfg pair.1 → ∃ d ∈ cs₁, d.edge.source = pair.1

/-- The supplied invariants hold where the execution visits their headers. -/
def VisitsTrue (inner : InnerInvariants) (cs : List Crossing) : Prop :=
  ∀ c ∈ cs, ∀ pair ∈ inner, pair.1 = c.edge.source → pair.2.Holds c.pre

section ExitClosure

variable {info : LoopInfo} {cfg : AbstractCfg} {candidate : Formula} {oracle : Oracle}
  {postconditions : CfgNodeId → Option Formula} {inner : InnerInvariants} {sem : Semantics}
  {cs cs₁ cs₂ : List Crossing} {c exit : Crossing} {p q : Position} {s s' : State}

theorem TransferEffect.Scalar.quiet {K : Var → Prop} {e : TransferEffect} (h : e.Scalar)
    (hstep : e.Step sem s s') : e.Quiet K s s' :=
  hstep.quiet (by cases h <;> trivial)

theorem AbstractCfg.Scalar.quiet {K : Var → Prop} (h : cfg.Scalar) (hvalid : c.Valid sem cfg) :
    c.Quiet cfg K where
  transfer := Path.mono (fun e he _ _ ↦ (h.node _ e he).quiet) hvalid.transfer
  effects := Path.mono (fun e he _ _ ↦ (h.edge _ hvalid.edge_mem e he).quiet) hvalid.effects

/-- A property of the effects of all nodes is a property of every transfer function. -/
theorem AbstractCfg.forall_transferAt {P : TransferEffect → Prop}
    (h : ∀ node ∈ cfg.nodes, ∀ e ∈ node.transfer.effects, P e) (n : CfgNodeId) :
    ∀ e ∈ (cfg.transferAt n).effects, P e := by
  rw [AbstractCfg.transferAt]
  split
  · rename_i node hnode
    exact h node (AbstractCfg.mem_of_node_eq_ok hnode).1
  · exact fun e he ↦ by cases he

theorem mem_summarized_iff {body : Finset CfgNodeId} {n : CfgNodeId} :
    n ∈ (summarizeInnerLoops cfg (some body) inner).2 ↔
      ∃ pair ∈ inner, pair.1 ∈ body ∧ n ∈ innerBody cfg pair.1 := by
  have hfoldr : ∀ sets : List (Finset CfgNodeId), n ∈ sets.foldr (· ∪ ·) ∅ ↔ ∃ t ∈ sets, n ∈ t := by
    intro sets
    induction sets with
    | nil => simp
    | cons t sets ih => simp [ih]
  simp only [summarizeInnerLoops, hfoldr, List.mem_map, List.mem_filter, decide_eq_true_eq]
  constructor
  · rintro ⟨t, ⟨pair, ⟨hpair, hbody⟩, rfl⟩, hn⟩
    exact ⟨pair, hpair, hbody, hn⟩
  · rintro ⟨pair, hpair, hbody, hn⟩
    exact ⟨_, ⟨pair, ⟨hpair, hbody⟩, rfl⟩, hn⟩

theorem supplied_eq {body : Finset CfgNodeId} {n : CfgNodeId} (hn : n ∈ body) :
    (summarizeInnerLoops cfg (some body) inner).1 n = inner.at? n := by
  simp [summarizeInnerLoops, hn]

theorem InnerInvariants.isSome_at? {pair : CfgNodeId × Formula} (h : pair ∈ inner) :
    (inner.at? pair.1).isSome := by
  unfold InnerInvariants.at?
  rw [Option.isSome_map, List.find?_isSome]
  exact ⟨pair, List.mem_reverse.2 h, by simp⟩

/-- Before a header with a supplied invariant has been visited, no summarised node is. -/
theorem EntersByHeader.notMem_summarized (h : EntersByHeader info cfg inner (cs₁ ++ c :: cs₂))
    (hunsupplied : ∀ d ∈ cs₁, inner.at? d.edge.source = none) :
    c.edge.source ∉ (summarizeInnerLoops cfg (some info.body) inner).2 := by
  intro hmem
  obtain ⟨pair, hpair, hbody, hin⟩ := mem_summarized_iff.1 hmem
  obtain ⟨d, hd, hsource⟩ := h cs₁ c cs₂ rfl pair hpair hbody hin
  have hsome := InnerInvariants.isSome_at? hpair
  rw [← hsource, hunsupplied d hd] at hsome
  cases hsome

/-- Consecutive crossings of an execution meet. -/
theorem AbstractCfg.Run.target_eq {d : Crossing} (h : cfg.Run sem (cs₁ ++ c :: d :: cs₂) p q) :
    c.edge.target = d.edge.source := by
  obtain ⟨-, -, m, ⟨-, -, rfl⟩, m', ⟨-, hd, -⟩, -⟩ := Path.append_iff.1 h
  exact congrArg Position.node hd

/-- Up to the first header with a supplied invariant, a traversal crosses only edges the backward
pass visits. -/
theorem Traversal.live (h : Traversal info cfg sem (cs₁ ++ cs₂) exit p q)
    (hsupplied : IteratesSupplied cfg inner (cs₁ ++ cs₂))
    (henters : EntersByHeader info cfg inner (cs₁ ++ cs₂ ++ [exit]))
    (hunsupplied : ∀ d ∈ cs₁, inner.at? d.edge.source = none) (hc : c ∈ cs₁) :
    c.edge.id ∉ cfg.detectBackEdges.toFinset ∧
      insideBody (some info.body) (summarizeInnerLoops cfg (some info.body) inner).2 c.edge := by
  obtain ⟨pre, post, rfl⟩ := List.append_of_mem hc
  have hpre : ∀ d ∈ pre ++ [c], inner.at? d.edge.source = none := by
    intro d hd
    refine hunsupplied d ?_
    rcases List.mem_append.1 hd with hd | hd
    · exact List.mem_append_left _ hd
    · exact List.mem_append_right _ (List.mem_singleton.1 hd ▸ List.mem_cons_self)
  have hbody := h.inside c (List.mem_append_left _ hc)
  constructor
  · intro hback
    obtain ⟨hsome, d, hd, hsource⟩ := hsupplied pre c (post ++ cs₂) (by simp)
      (List.mem_toFinset.1 hback)
    rw [← hsource, hpre d hd] at hsome
    cases hsome
  · have hsplit : EntersByHeader info cfg inner (pre ++ c :: (post ++ cs₂ ++ [exit])) := by
      simpa using henters
    have hsource : c.edge.source ∉ (summarizeInnerLoops cfg (some info.body) inner).2 :=
      hsplit.notMem_summarized fun d hd ↦ hpre d (List.mem_append_left _ hd)
    -- The target is the source of the next crossing, which is there because the exit is.
    obtain ⟨d, rest, hnext⟩ : ∃ d rest, post ++ cs₂ ++ [exit] = d :: rest :=
      List.exists_cons_of_ne_nil (by simp)
    have hsplit : pre ++ c :: post ++ cs₂ ++ [exit] = pre ++ c :: d :: rest := by
      simp [← hnext]
    have htarget : c.edge.target ∉ (summarizeInnerLoops cfg (some info.body) inner).2 := by
      have hrun := h.run
      rw [hsplit] at hrun henters
      rw [hrun.target_eq]
      have hrest : EntersByHeader info cfg inner ((pre ++ [c]) ++ d :: rest) := by
        simpa using henters
      exact hrest.notMem_summarized hpre
    simp [insideBody, hbody, hsource, htarget]

/-- A traversal that ends in a postcondition starts in the backward states from its exit. -/
theorem Traversal.holds_backwardStates (h : Traversal info cfg sem cs exit p q)
    (hquiet : ∀ c ∈ cs ++ [exit], c.Quiet cfg fun _ ↦ True)
    (hsupplied : IteratesSupplied cfg inner cs)
    (henters : EntersByHeader info cfg inner (cs ++ [exit]))
    (htrue : VisitsTrue inner (cs ++ [exit])) {postcondition : Formula}
    (hq : postcondition.Holds q.state) {states : CfgNodeId → Formula}
    (hstates : backwardStates cfg cfg.detectBackEdges.toFinset (some info.body) true inner false
      [(exit.edge.source, edgePre false false (cfg.transferAt exit.edge.source) exit.edge
        postcondition)] = some states) :
    (states p.node).Holds p.state := by
  have hreads := cfg.readsWithin_true
  -- Split the traversal at the first header with a supplied invariant.
  obtain ⟨cs₁, cs₂, rfl, hunsupplied, hfirst⟩ : ∃ cs₁ cs₂, cs = cs₁ ++ cs₂ ∧
      (∀ d ∈ cs₁, inner.at? d.edge.source = none) ∧
      ∀ d ∈ cs₂.head?, (inner.at? d.edge.source).isSome := by
    refine ⟨cs.takeWhile fun d ↦ (inner.at? d.edge.source).isNone,
      cs.dropWhile fun d ↦ (inner.at? d.edge.source).isNone, (List.takeWhile_append_dropWhile).symm,
      fun d hd ↦ by simpa using List.mem_takeWhile_imp hd, fun d hd ↦ ?_⟩
    have hhead := List.head?_dropWhile_not (fun d : Crossing ↦ (inner.at? d.edge.source).isNone) cs
    rw [Option.mem_def.1 hd] at hhead
    simpa using hhead
  have hlive {c : Crossing} (hc : c ∈ cs₁) := h.live hsupplied henters hunsupplied hc
  obtain ⟨m, hrun₁, hrun₂⟩ : ∃ m, cfg.Run sem cs₁ p m ∧ cfg.Run sem (cs₂ ++ [exit]) m q := by
    have hrun := h.run
    rw [List.append_assoc] at hrun
    exact Path.append_iff.1 hrun
  refine holds_backwardStates_of_run (K := fun _ ↦ True) hstates hreads.termsRead
    (fun seed _ ↦ (seed.2.readsWithin_true).terms) (fun pair _ ↦ (pair.2.readsWithin_true).terms)
    hrun₁ (fun c hc ↦ hquiet c (by simp [hc])) (fun c hc ↦ hlive hc) ?_
  cases cs₂ with
  | nil =>
    obtain ⟨hexit, rfl, rfl⟩ := Path.singleton_iff.1 hrun₂
    refine holds_initialStates (List.mem_singleton.2 rfl) ?_
    exact (hquiet exit (by simp)).holds_edgePre hexit hreads.termsRead
      postcondition.readsWithin_true.terms hq
  | cons c cs₂ =>
    obtain ⟨-, ⟨-, rfl, -⟩, -⟩ := hrun₂
    obtain ⟨inv, hinv⟩ := Option.isSome_iff_exists.1 (hfirst c rfl)
    have hbody := (h.inside c (by simp)).1
    have hsupply : (summarizeInnerLoops cfg (some info.body) inner).1 c.edge.source = some inv :=
      (supplied_eq hbody).trans hinv
    refine holds_initialStates_of_header hsupply ?_
    exact htrue c (by simp) _ (InnerInvariants.mem_of_at? hinv) rfl

/-- The exit check excludes the postcondition of a traversal that the transformer accounts for. -/
theorem Traversal.not_holds_postcondition (hsound : oracle.InfeasibleSound)
    (haccepted : checkLoopInvariantVerbose info cfg candidate oracle postconditions inner =
      .accepted)
    (h : Traversal info cfg sem cs exit p q)
    (hquiet : ∀ c ∈ cs ++ [exit], c.Quiet cfg fun _ ↦ True)
    (hsupplied : IteratesSupplied cfg inner cs)
    (henters : EntersByHeader info cfg inner (cs ++ [exit]))
    (htrue : VisitsTrue inner (cs ++ [exit]))
    (hp : (normalizeCandidate cfg info.header candidate).Holds p.state) {postcondition : Formula}
    (hpost : postconditions exit.edge.target = some postcondition) :
    ¬ postcondition.Holds q.state := by
  intro hq
  obtain ⟨-, -, -, hexits⟩ := accepted_iff.1 haccepted
  obtain ⟨m, -, hexit⟩ := Path.append_iff.1 h.run
  obtain ⟨hvalid, -, -⟩ := Path.singleton_iff.1 hexit
  have hne : postcondition ≠ .fls := by
    rintro rfl
    exact Formula.not_holds_fls _ hq
  obtain ⟨states, hstates, hexcludes⟩ := exists_of_checkExit hsound hvalid.edge_mem hpost hne
    (hexits _ h.leaves)
  have hheader := h.holds_backwardStates hquiet hsupplied henters htrue hq hstates
  rw [h.header_eq] at hheader
  exact hexcludes _ hp hheader

/-- **An accepted candidate excludes the exit postconditions.** Let the oracle be sound and the
effects scalar. An execution that starts at the header in a state satisfying the normalised
candidate, traverses the body once and leaves through an exit edge does not end in the
postcondition of that edge, provided that the inner loops it iterates have supplied invariants,
that it enters their bodies through their headers, and that the invariants hold there. -/
theorem not_postcondition_of_accepted (hsound : oracle.InfeasibleSound) (hscalar : cfg.Scalar)
    (haccepted : checkLoopInvariantVerbose info cfg candidate oracle postconditions inner =
      .accepted)
    (h : Traversal info cfg sem cs exit p q) (hsupplied : IteratesSupplied cfg inner cs)
    (henters : EntersByHeader info cfg inner (cs ++ [exit]))
    (htrue : VisitsTrue inner (cs ++ [exit]))
    (hp : (normalizeCandidate cfg info.header candidate).Holds p.state) {postcondition : Formula}
    (hpost : postconditions exit.edge.target = some postcondition) :
    ¬ postcondition.Holds q.state := by
  refine h.not_holds_postcondition hsound haccepted (fun c hc ↦ ?_) hsupplied henters htrue hp hpost
  obtain ⟨-, -, -, hvalid, -⟩ := AbstractCfg.Run.split h.run hc
  exact hscalar.quiet hvalid

end ExitClosure

/-! ### Inner loops that are not summarised -/

section Unsummarized

/-- The candidate is inconsistent with `x` being 1, and with nothing. -/
def xIsOne : Formula := .eq (.var (.int "x")) (.int 1)

/-- A solver that knows that `x` can be 0, but not while it is not or while it is 1. -/
def zeroNotOneOracle : Oracle :=
  .knowing [.and [xIsZero, .not xIsZero], .and [xIsZero, xIsOne], .fls] [xIsZero]

theorem infeasibleSound_zeroNotOneOracle : zeroNotOneOracle.InfeasibleSound := by
  refine Oracle.infeasibleSound_knowing fun φ hφ s hs ↦ ?_
  have hcases : φ = .and [xIsZero, .not xIsZero] ∨ φ = .and [xIsZero, xIsOne] ∨ φ = .fls := by
    simpa using hφ
  rcases hcases with rfl | rfl | rfl
  · simp at hs
  · have hboth : xIsZero.Holds s ∧ xIsOne.Holds s := by simpa using hs
    have hzero := holds_xIsZero_iff.1 hboth.1
    have hone := hboth.2
    simp [xIsOne, Formula.Holds, Formula.eval, Term.eval, hzero, Value.compare] at hone
  · exact Formula.not_holds_fls s hs

/-- The entry sets `x` to 0; the outer loop runs between nodes 1 and 2, and from node 2 an inner
loop over node 3, which sets `x` to 1, returns to node 2. The outer loop is left from node 2. -/
def nestedCfg : AbstractCfg where
  nodes := [⟨0, "entry", .entry, ⟨[.assign (.int "x") (.term (.int 0))]⟩⟩,
    ⟨1, "outer", .normal, .identity⟩, ⟨2, "inner", .normal, .identity⟩,
    ⟨3, "body", .normal, ⟨[.assign (.int "x") (.term (.int 1))]⟩⟩, ⟨4, "exit", .exit, .identity⟩]
  edges := [⟨0, 0, 1, .tru, []⟩, ⟨1, 1, 2, .tru, []⟩, ⟨2, 2, 3, .tru, []⟩, ⟨3, 3, 2, .tru, []⟩,
    ⟨4, 2, 1, .tru, []⟩, ⟨5, 2, 4, .tru, []⟩]
  entry := 0
  concreteExits := [4]
  exit := some 4
  nextNode := 5
  nextEdge := 6
  nodes_sorted := by simp
  edges_sorted := by simp
  node_lt := by simp
  edge_lt := by simp
  entry_mem := by simp
  source_mem := by simp
  target_mem := by simp

/-- The same loops, but the outer header also enters the inner body directly, and the outer loop is
left from there. -/
def sideEntryCfg : AbstractCfg where
  nodes := [⟨0, "entry", .entry, ⟨[.assign (.int "x") (.term (.int 0))]⟩⟩,
    ⟨1, "outer", .normal, .identity⟩, ⟨2, "inner", .normal, .identity⟩,
    ⟨3, "body", .normal, .identity⟩, ⟨4, "exit", .exit, .identity⟩]
  edges := [⟨0, 0, 1, .tru, []⟩, ⟨1, 1, 2, .tru, []⟩, ⟨2, 2, 3, .tru, []⟩, ⟨3, 3, 2, .tru, []⟩,
    ⟨4, 1, 3, .tru, []⟩, ⟨5, 3, 4, .tru, []⟩, ⟨6, 2, 1, .tru, []⟩]
  entry := 0
  concreteExits := [4]
  exit := some 4
  nextNode := 5
  nextEdge := 7
  nodes_sorted := by simp
  edges_sorted := by simp
  node_lt := by simp
  edge_lt := by simp
  entry_mem := by simp
  source_mem := by simp
  target_mem := by simp

/-- The outer loops of the two graphs. -/
def nestedLoop : LoopInfo := loopOf nestedCfg ⟨4, 2, 1, .tru, []⟩

/-- The outer loop of the graph with a side entry. -/
def sideEntryLoop : LoopInfo := loopOf sideEntryCfg ⟨6, 2, 1, .tru, []⟩

/-- One postcondition, at node 4. -/
def atExit (φ : Formula) (n : CfgNodeId) : Option Formula := if n = 4 then some φ else none

theorem accepted_nestedLoop : checkLoopInvariantVerbose nestedLoop nestedCfg xIsZero
    zeroNotOneOracle (atExit xIsOne) [] = .accepted := by
  decide

theorem accepted_sideEntryLoop : checkLoopInvariantVerbose sideEntryLoop sideEntryCfg xIsZero
    zeroNotOneOracle (atExit xIsZero) [(2, .tru)] = .accepted := by
  decide

theorem scalar_nestedCfg : nestedCfg.Scalar where
  node := AbstractCfg.forall_transferAt fun node hnode e he ↦ by
    have hcases : ∀ node ∈ nestedCfg.nodes, ∀ e ∈ node.transfer.effects,
        e = .assign (.int "x") (.term (.int 0)) ∨ e = .assign (.int "x") (.term (.int 1)) := by
      decide
    rcases hcases node hnode e he with rfl | rfl
    · exact .assign _ _
    · exact .assign _ _
  edge e he f hf := by
    have hnil : ∀ e ∈ nestedCfg.edges, e.effects = [] := by decide
    rw [hnil e he] at hf
    cases hf

/-- The general statement for the traversal that does not iterate the inner loop. -/
theorem not_postcondition_of_accepted_nestedCfg :
    ¬ xIsOne.Holds (State.zero.set (.int "x") (.int 0)) := by
  let s := State.zero.set (.int "x") (.int 0)
  have htraversal : Traversal nestedLoop nestedCfg .unknownCallees
      [⟨⟨1, 1, 2, .tru, []⟩, s, s, s⟩] ⟨⟨5, 2, 4, .tru, []⟩, s, s, s⟩ ⟨1, s⟩ ⟨4, s⟩ := by
    refine ⟨⟨_, ⟨⟨by decide, rfl, Formula.holds_tru s, rfl⟩, rfl, rfl⟩, _, ⟨⟨by decide, rfl,
      Formula.holds_tru s, rfl⟩, rfl, rfl⟩, rfl⟩, by decide, fun c hc ↦ ?_, fun c hc ↦ ?_,
      by decide⟩
    · obtain rfl := List.mem_singleton.1 hc
      decide
    · obtain rfl := List.mem_singleton.1 hc
      decide
  have hsupplied : IteratesSupplied nestedCfg [] [⟨⟨1, 1, 2, .tru, []⟩, s, s, s⟩] := by
    intro cs₁ c cs₂ hsplit hback
    have hc : c ∈ [(⟨⟨1, 1, 2, .tru, []⟩, s, s, s⟩ : Crossing)] := hsplit ▸ by simp
    obtain rfl := List.mem_singleton.1 hc
    exact absurd hback (by decide)
  have hzero : (normalizeCandidate nestedCfg nestedLoop.header xIsZero).Holds s := by
    have hnormal : normalizeCandidate nestedCfg nestedLoop.header xIsZero = xIsZero := by
      decide
    rw [hnormal, holds_xIsZero_iff]
    exact State.lookup_set_self rfl
  exact not_postcondition_of_accepted infeasibleSound_zeroNotOneOracle scalar_nestedCfg
    accepted_nestedLoop htraversal hsupplied (fun _ _ _ _ pair hpair ↦ by cases hpair)
    (fun _ _ pair hpair ↦ by cases hpair) hzero rfl

/-- The inner loop without a supplied invariant makes `x` 1 on the way to the exit; and the
traversal that takes no back edge, but enters the summarised body beside its header, leaves with
`x` 0, although the postcondition was excluded. -/
theorem not_not_postcondition_of_accepted :
    (¬ ∀ (info : LoopInfo) (cfg : AbstractCfg) (candidate : Formula) (oracle : Oracle)
      (postconditions : CfgNodeId → Option Formula) (inner : InnerInvariants),
      oracle.InfeasibleSound → info ∈ detectLoops cfg →
      checkLoopInvariantVerbose info cfg candidate oracle postconditions inner = .accepted →
      ∀ cs exit p q, Traversal info cfg .unknownCallees cs exit p q →
        VisitsTrue inner (cs ++ [exit]) →
        (normalizeCandidate cfg info.header candidate).Holds p.state →
        ∀ φ, postconditions exit.edge.target = some φ → ¬ φ.Holds q.state) ∧
    ¬ ∀ (info : LoopInfo) (cfg : AbstractCfg) (candidate : Formula) (oracle : Oracle)
      (postconditions : CfgNodeId → Option Formula) (inner : InnerInvariants),
      oracle.InfeasibleSound → info ∈ detectLoops cfg →
      checkLoopInvariantVerbose info cfg candidate oracle postconditions inner = .accepted →
      ∀ cs exit p q, Traversal info cfg .unknownCallees cs exit p q →
        IteratesSupplied cfg inner cs → VisitsTrue inner (cs ++ [exit]) →
        (normalizeCandidate cfg info.header candidate).Holds p.state →
        ∀ φ, postconditions exit.edge.target = some φ → ¬ φ.Holds q.state := by
  let s := State.zero.set (.int "x") (.int 0)
  let s' := s.set (.int "x") (.int 1)
  have hzero : xIsZero.Holds s := holds_xIsZero_iff.2 (State.lookup_set_self rfl)
  refine ⟨fun h ↦ ?_, fun h ↦ ?_⟩
  · let cs : List Crossing := [⟨⟨1, 1, 2, .tru, []⟩, s, s, s⟩, ⟨⟨2, 2, 3, .tru, []⟩, s, s, s⟩,
      ⟨⟨3, 3, 2, .tru, []⟩, s, s', s'⟩]
    have hbody : TransferEffect.Step .unknownCallees (.assign (.int "x") (.term (.int 1))) s
      s' := by
      refine ⟨?_, by decide, ?_⟩
      · simp [Term.eval, Var.int]
      · simp [Term.eval, s']
    have htraversal : Traversal nestedLoop nestedCfg .unknownCallees cs
        ⟨⟨5, 2, 4, .tru, []⟩, s', s', s'⟩ ⟨1, s⟩ ⟨4, s'⟩ := by
      refine ⟨⟨_, ⟨⟨by decide, rfl, Formula.holds_tru s, rfl⟩, rfl, rfl⟩, _, ⟨⟨by decide, rfl,
        Formula.holds_tru s, rfl⟩, rfl, rfl⟩, _, ⟨⟨by decide, Path.singleton_iff.2 hbody,
        Formula.holds_tru s', rfl⟩, rfl, rfl⟩, _, ⟨⟨by decide, rfl, Formula.holds_tru s', rfl⟩, rfl,
        rfl⟩, rfl⟩, by decide, fun c hc ↦ ?_, fun c hc ↦ ?_, by decide⟩
      · have hall : ∀ e ∈ cs.map (·.edge), e.source ∈ nestedLoop.body ∧
            e.target ∈ nestedLoop.body := by
          simp only [cs, List.map_cons, List.map_nil]
          decide
        exact hall _ (List.mem_map_of_mem hc)
      · have hall : ∀ e ∈ cs.map (·.edge), e.id ≠ nestedLoop.backEdge := by
          simp only [cs, List.map_cons, List.map_nil]
          decide
        exact hall _ (List.mem_map_of_mem hc)
    have hnormal : normalizeCandidate nestedCfg nestedLoop.header xIsZero = xIsZero := by
      decide
    refine h nestedLoop nestedCfg xIsZero zeroNotOneOracle (atExit xIsOne) []
      infeasibleSound_zeroNotOneOracle (by decide) accepted_nestedLoop _ _ _ _ htraversal
      (fun _ _ pair hpair ↦ by cases hpair) (hnormal ▸ hzero) xIsOne rfl ?_
    have hone : s'.lookup (.int "x") = .int 1 := State.lookup_set_self rfl
    simp [xIsOne, Formula.Holds, Formula.eval, Term.eval, hone, Value.compare]
  · have htraversal : Traversal sideEntryLoop sideEntryCfg .unknownCallees
        [⟨⟨4, 1, 3, .tru, []⟩, s, s, s⟩] ⟨⟨5, 3, 4, .tru, []⟩, s, s, s⟩ ⟨1, s⟩ ⟨4, s⟩ := by
      refine ⟨⟨_, ⟨⟨by decide, rfl, Formula.holds_tru s, rfl⟩, rfl, rfl⟩, _, ⟨⟨by decide, rfl,
        Formula.holds_tru s, rfl⟩, rfl, rfl⟩, rfl⟩, by decide, fun c hc ↦ ?_,
        fun c hc ↦ ?_, by decide⟩
      · obtain rfl := List.mem_singleton.1 hc
        decide
      · obtain rfl := List.mem_singleton.1 hc
        decide
    have hsupplied : IteratesSupplied sideEntryCfg [(2, .tru)]
        [⟨⟨4, 1, 3, .tru, []⟩, s, s, s⟩] := by
      intro cs₁ c cs₂ hsplit hback
      have hc : c ∈ [(⟨⟨4, 1, 3, .tru, []⟩, s, s, s⟩ : Crossing)] := hsplit ▸ by simp
      obtain rfl := List.mem_singleton.1 hc
      exact absurd hback (by decide)
    have hvisits : VisitsTrue [(2, .tru)] ([⟨⟨4, 1, 3, .tru, []⟩, s, s, s⟩] ++
        [⟨⟨5, 3, 4, .tru, []⟩, s, s, s⟩]) := by
      intro c _ pair hpair _
      obtain rfl := List.mem_singleton.1 hpair
      exact Formula.holds_tru _
    have hnormal : normalizeCandidate sideEntryCfg sideEntryLoop.header xIsZero = xIsZero := by
      decide
    exact h sideEntryLoop sideEntryCfg xIsZero zeroNotOneOracle (atExit xIsZero) [(2, .tru)]
      infeasibleSound_zeroNotOneOracle (by decide) accepted_sideEntryLoop _ _ _ _ htraversal
      hsupplied hvisits (hnormal ▸ hzero) xIsZero rfl hzero

end Unsummarized

end MayMust
