import Mathlib.Logic.Function.Basic
import MayMust.Library.Path

/-!
# One backward pass over a graph

Values are attached to the nodes of a graph, and an edge is visited by joining the value it
transforms from its target into the value of its source. A pass visits a list of edges. Two rules
say what a pass does.

* `backwardPass_induction`: what holds of the values at the start, and is kept by the join and by
  each transformer, holds at the end. No order of the edges is needed.
* `sat_backwardPass_of_path`: if every edge is visited after the edges out of its target, a pass
  carries satisfaction from the end of a path to its start, provided each transformer carries it
  over its edge.
-/

namespace Library

variable {ν ε F σ : Type*} [DecidableEq ν]

section Pass

variable (source target : ε → ν) (join : F → F → F) (pre : ε → F → F)

/-- Visit one edge. -/
def joinEdge (values : ν → F) (e : ε) : ν → F :=
  Function.update values (source e) (join (values (source e)) (pre e (values (target e))))

/-- Visit the edges in turn. -/
def backwardPass (edges : List ε) (values : ν → F) : ν → F :=
  edges.foldl (joinEdge source target join pre) values

end Pass

variable {source target : ε → ν} {join : F → F → F} {pre : ε → F → F} {edges : List ε}
  {values : ν → F}

/-- What the join and the transformers keep, a pass keeps. -/
theorem backwardPass_induction {P : ν → F → Prop} (hvalues : ∀ n, P n (values n))
    (hjoin : ∀ n φ ψ, P n φ → P n ψ → P n (join φ ψ))
    (hpre : ∀ e ∈ edges, ∀ φ, P (target e) φ → P (source e) (pre e φ)) :
    ∀ n, P n (backwardPass source target join pre edges values n) := by
  induction edges generalizing values with
  | nil => exact hvalues
  | cons e edges ih =>
    rw [List.forall_mem_cons] at hpre
    refine ih (fun n ↦ ?_) hpre.2
    by_cases hn : n = source e
    · subst hn
      rw [joinEdge, Function.update_self]
      exact hjoin _ _ _ (hvalues _) (hpre.1 _ (hvalues _))
    · rw [joinEdge, Function.update_of_ne hn]
      exact hvalues n

section Sat

variable {sat : σ → F → Prop}

/-- Satisfaction of a value is never lost. -/
theorem sat_backwardPass_of_sat (hjoin : ∀ s φ ψ, sat s φ → sat s (join φ ψ)) {n : ν} {s : σ}
    (h : sat s (values n)) : sat s (backwardPass source target join pre edges values n) := by
  induction edges generalizing values with
  | nil => exact h
  | cons e edges ih =>
    refine ih ?_
    by_cases hn : n = source e
    · subst hn
      rw [joinEdge, Function.update_self]
      exact hjoin _ _ _ h
    · rwa [joinEdge, Function.update_of_ne hn]

/-- An edge over which satisfaction of admitted values is carried from its end to its start. -/
structure Carries (source target : ε → ν) (pre : ε → F → F) (sat : σ → F → Prop)
    (admits : F → Prop) (e : ε) (p q : ν × σ) : Prop where
  source_eq : p.1 = source e
  target_eq : q.1 = target e
  sat_pre : ∀ φ, admits φ → sat q.2 φ → sat p.2 (pre e φ)

/-- **A pass in reverse order follows paths.** Satisfaction at the end of a path of visited edges
becomes satisfaction at its start. -/
theorem sat_backwardPass_of_path {admits : F → Prop} {es : List ε} {p q : ν × σ}
    (hadmits : ∀ n, admits (values n))
      (hadmitsJoin : ∀ φ ψ, admits φ → admits ψ → admits (join φ ψ))
    (hadmitsPre : ∀ e ∈ edges, ∀ φ, admits φ → admits (pre e φ))
    (hleft : ∀ s φ ψ, sat s φ → sat s (join φ ψ)) (hright : ∀ s φ ψ, sat s ψ → sat s (join φ ψ))
    (hordered : ∀ before e after, edges = before ++ e :: after →
      ∀ e' ∈ edges, source e' = target e → e' ∈ before)
    (hpath : Path (Carries source target pre sat admits) es p q) (hmem : ∀ e ∈ es, e ∈ edges)
    (h : sat q.2 (values q.1)) :
    sat p.2 (backwardPass source target join pre edges values p.1) := by
  -- The induction is on the path; the part of the pass before its first edge reaches the rest.
  suffices hgen : ∀ before after, edges = before ++ after → (∀ e ∈ es.head?, e ∈ before) →
      sat p.2 (backwardPass source target join pre before values p.1) from
    hgen edges [] (List.append_nil _).symm fun e he ↦ hmem e (List.mem_of_mem_head? he)
  induction es generalizing p with
  | nil =>
    rintro before after - -
    obtain rfl : p = q := hpath
    exact sat_backwardPass_of_sat hleft h
  | cons e es ih =>
    intro before after hsplit hbefore
    obtain ⟨m, hcarries, hrest⟩ := hpath
    rw [List.forall_mem_cons] at hmem
    obtain ⟨first, last, rfl⟩ := List.append_of_mem (hbefore e rfl)
    have hsplit' : edges = first ++ e :: (last ++ after) := by simp [hsplit]
    have hfirst : ∀ e' ∈ es.head?, e' ∈ first := by
      intro e' he'
      obtain ⟨es', rfl⟩ := List.head?_eq_some_iff.1 he'
      obtain ⟨m', hcarries', -⟩ := hrest
      exact hordered first e _ hsplit' e' (hmem.2 e' List.mem_cons_self)
        (hcarries'.source_eq.symm.trans hcarries.target_eq)
    have hm := ih hrest hmem.2 first (e :: (last ++ after)) hsplit' hfirst
    have hadmitted : admits (backwardPass source target join pre first values m.1) :=
      backwardPass_induction (P := fun _ ↦ admits) hadmits (fun _ ↦ hadmitsJoin)
        (fun e he ↦ hadmitsPre e (by simp [hsplit', he])) m.1
    rw [backwardPass, List.foldl_append, List.foldl_cons]
    refine sat_backwardPass_of_sat hleft ?_
    rw [hcarries.source_eq, joinEdge, Function.update_self]
    rw [hcarries.target_eq] at hm hadmitted
    exact hright _ _ _ (hcarries.sat_pre _ hadmitted hm)

end Sat

end Library
