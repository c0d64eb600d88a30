import Mathlib.Data.Finset.Card
import Mathlib.Data.Finset.SDiff
import Mathlib.Logic.Relation

/-!
# Search for a target

A depth-first search that asks whether a node leads to a target. The set of the nodes seen is shared
by all branches of the search, and the search stops as soon as an edge leads to the target. The
depth of the nesting is the first argument; the number of the nodes that have not been seen is
enough.

A node that is not the target is entered at most once, whether or not the search that entered it
is over. What carries the argument is therefore what an unsuccessful search leaves behind: the
nodes it has seen are closed under edges, up to the nodes seen before, and none of the edges leads
to the target (`Explored`).
-/

namespace Library

open Relation

variable {ν : Type*} [DecidableEq ν]

section Algorithm

variable (successors : ν → List ν) (target : ν)

/-- Look at some nodes in turn; `visit` goes on from a node. The result says whether the target has
been met, and what has been seen. -/
def searchAmong (visit : ν → Finset ν → Bool × Finset ν) : List ν → Finset ν → Bool × Finset ν
  | [], seen => (false, seen)
  | v :: vs, seen =>
    if v = target then (true, seen)
    else if v ∈ seen then searchAmong visit vs seen
    else if (visit v (insert v seen)).1 then (true, (visit v (insert v seen)).2)
    else searchAmong visit vs (visit v (insert v seen)).2

/-- Go on from a node, to the given depth. -/
def searchFrom : ℕ → ν → Finset ν → Bool × Finset ν
  | 0, _, seen => (false, seen)
  | fuel + 1, v, seen => searchAmong target (searchFrom fuel) (successors v) seen

end Algorithm

section Correctness

variable {successors : ν → List ν} {target v : ν} {vs : List ν} {seen seen' seen'' : Finset ν}
  {visit : ν → Finset ν → Bool × Finset ν} {fuel : ℕ} {nodes : Finset ν}

/-- One node is a successor of the other. -/
def Succeeds (successors : ν → List ν) (u v : ν) : Prop := v ∈ successors u

/-! ### A search that succeeds -/

theorem of_searchAmong {P : ν → Prop} (hvisit : ∀ v seen, (visit v seen).1 = true → P v)
    (h : (searchAmong target visit vs seen).1 = true) : target ∈ vs ∨ ∃ v ∈ vs, P v := by
  induction vs generalizing seen with
  | nil => cases h
  | cons v vs ih =>
    have htail {seen : Finset ν} (h : (searchAmong target visit vs seen).1 = true) :
        target ∈ v :: vs ∨ ∃ w ∈ v :: vs, P w :=
      (ih h).imp (List.mem_cons_of_mem v) fun ⟨w, hw, hP⟩ ↦ ⟨w, List.mem_cons_of_mem v hw, hP⟩
    rw [searchAmong] at h
    split_ifs at h with htarget hseen hfound
    · exact Or.inl (htarget ▸ List.mem_cons_self)
    · exact htail h
    · exact Or.inr ⟨v, List.mem_cons_self, hvisit v _ hfound⟩
    · exact htail h

/-- A search that succeeds has followed edges to the target. -/
theorem transGen_of_searchFrom (h : (searchFrom successors target fuel v seen).1 = true) :
    TransGen (Succeeds successors) v target := by
  induction fuel generalizing v seen with
  | zero => cases h
  | succ fuel ih =>
    rcases of_searchAmong (fun w seen h ↦ ih h) h with htarget | ⟨w, hw, hreach⟩
    · exact .single htarget
    · exact .head hw hreach

/-! ### A search that fails -/

/-- The edges out of a node lead to nodes seen, and not to the target. -/
def Exhausted (successors : ν → List ν) (target : ν) (seen : Finset ν) (v : ν) : Prop :=
  ∀ w ∈ successors v, w ≠ target ∧ w ∈ seen

/-- What a search that fails leaves behind. -/
structure Explored (successors : ν → List ν) (target : ν) (seen seen' : Finset ν) : Prop where
  subset : seen ⊆ seen'
  exhausted : ∀ v ∈ seen', v ∉ seen → Exhausted successors target seen' v

omit [DecidableEq ν] in
theorem Exhausted.mono (h : Exhausted successors target seen v) (hsub : seen ⊆ seen') :
    Exhausted successors target seen' v :=
  fun w hw ↦ ⟨(h w hw).1, hsub (h w hw).2⟩

omit [DecidableEq ν] in
theorem Explored.refl : Explored successors target seen seen :=
  ⟨fun _ hv ↦ hv, fun _ hv hnot ↦ absurd hv hnot⟩

omit [DecidableEq ν] in
theorem Explored.trans (h : Explored successors target seen seen')
    (h' : Explored successors target seen' seen'') : Explored successors target seen seen'' where
  subset := fun _ hv ↦ h'.subset (h.subset hv)
  exhausted v hv hnot := by
    by_cases hmem : v ∈ seen'
    · exact (h.exhausted v hmem hnot).mono h'.subset
    · exact h'.exhausted v hv hmem

/-- A node that has been entered and gone on from is exhausted as well. -/
theorem Explored.insert (h : Explored successors target (insert v seen) seen')
    (hv : Exhausted successors target seen' v) : Explored successors target seen seen' where
  subset := fun _ hw ↦ h.subset (Finset.mem_insert_of_mem hw)
  exhausted w hw hnot := by
    rcases eq_or_ne w v with rfl | hne
    · exact hv
    · exact h.exhausted w hw fun hmem ↦ (Finset.mem_insert.1 hmem).elim hne hnot

/-- Looking at some nodes fails if none is the target and going on from each of them fails. -/
theorem explored_of_searchAmong
    (hvisit : ∀ w ∈ vs, ∀ seen seen', (nodes \ seen).card < fuel → visit w seen = (false, seen') →
      Explored successors target seen seen' ∧ Exhausted successors target seen' w)
    (hnodes : ∀ w ∈ vs, w ∈ nodes) (hfuel : (nodes \ seen).card ≤ fuel)
    (h : searchAmong target visit vs seen = (false, seen')) :
    Explored successors target seen seen' ∧ ∀ w ∈ vs, w ≠ target ∧ w ∈ seen' := by
  induction vs generalizing seen with
  | nil =>
    obtain rfl : seen = seen' := (Prod.mk.inj h).2
    exact ⟨.refl, by simp⟩
  | cons v vs ih =>
    rw [List.forall_mem_cons] at hvisit hnodes
    rw [searchAmong] at h
    split_ifs at h with htarget hseen hfound
    · cases (Prod.mk.inj h).1
    · obtain ⟨hexplored, hrest⟩ := ih hvisit.2 hnodes.2 hfuel h
      exact ⟨hexplored, List.forall_mem_cons.2 ⟨⟨htarget, hexplored.subset hseen⟩, hrest⟩⟩
    · cases (Prod.mk.inj h).1
    · -- Entering the node leaves one node less to see.
      have hless : (nodes \ insert v seen).card < (nodes \ seen).card := by
        rw [Finset.sdiff_insert]
        exact Finset.card_erase_lt_of_mem (Finset.mem_sdiff.2 ⟨hnodes.1, hseen⟩)
      have hfailed : visit v (insert v seen) = (false, (visit v (insert v seen)).2) :=
        Prod.ext (Bool.eq_false_of_not_eq_true hfound) rfl
      obtain ⟨hentered, hv⟩ := hvisit.1 _ _ (hless.trans_le hfuel) hfailed
      have hsub := (hentered.insert hv).subset
      obtain ⟨hexplored, hrest⟩ := ih hvisit.2 hnodes.2
        ((Finset.card_le_card (Finset.sdiff_subset_sdiff subset_rfl hsub)).trans hfuel) h
      refine ⟨(hentered.insert hv).trans hexplored, List.forall_mem_cons.2 ⟨⟨htarget, ?_⟩, hrest⟩⟩
      exact hexplored.subset (hentered.subset (Finset.mem_insert_self v seen))

/-- A search that fails has seen what its start leads to. -/
theorem explored_of_searchFrom (hnodes : ∀ u, ∀ w ∈ successors u, w ∈ nodes)
    (hfuel : (nodes \ seen).card < fuel)
    (h : searchFrom successors target fuel v seen = (false, seen')) :
    Explored successors target seen seen' ∧ Exhausted successors target seen' v := by
  induction fuel generalizing v seen seen' with
  | zero => exact absurd hfuel (Nat.not_lt_zero _)
  | succ fuel ih =>
    exact explored_of_searchAmong (fun w _ seen seen' hless hfailed ↦ ih hless hfailed) (hnodes v)
      (Nat.lt_succ_iff.1 hfuel) h

/-- **The search decides whether the node leads to the target.** -/
theorem searchFrom_eq_true_iff (hnodes : ∀ u, ∀ w ∈ successors u, w ∈ nodes)
    (hfuel : nodes.card < fuel) :
    (searchFrom successors target fuel v ∅).1 = true ↔
      TransGen (Succeeds successors) v target := by
  refine ⟨transGen_of_searchFrom, fun hreach ↦ ?_⟩
  by_contra hfound
  obtain ⟨hexplored, hv⟩ := explored_of_searchFrom hnodes (by rwa [Finset.sdiff_empty])
    (Prod.ext (Bool.eq_false_of_not_eq_true hfound) rfl)
  -- Whatever the node leads to has been seen and is not the target.
  have hclosed {w : ν} (hw : TransGen (Succeeds successors) v w) :
      w ≠ target ∧ w ∈ (searchFrom successors target fuel v ∅).2 := by
    induction hw with
    | single hstep => exact hv _ hstep
    | tail _ hstep ih => exact hexplored.exhausted _ ih.2 (Finset.notMem_empty _) _ hstep
  exact (hclosed hreach).1 rfl

end Correctness

end Library
