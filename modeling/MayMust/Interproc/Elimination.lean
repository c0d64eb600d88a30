import Mathlib.Data.List.Nodup
import Mathlib.Data.String.Basic
import Mathlib.Logic.Relation
import MayMust.Interproc.Blocks

/-!
# When a projection eliminates the locals

A projection is to mention no local, and to hold where the formula holds for some values of the
locals (`ProjectedOnto`). The walk that looks for locals at the end does not enter the memories that
terms read, and neither does the resolution of the definitions. A local in such a memory goes
unnoticed, and remains in two cases: nothing defines it, or the definition that brings it in is
substituted after its own. The conditions of `Eliminable` exclude these. The third condition is
that a defined name has one sort, as the resolution goes by name and the substitution by name and
sort.

That a local which the walk does see is gone needs no condition, since the projection fails
otherwise. This includes chains of definitions that are too long, and cycles.
-/

namespace MayMust

open Relation Library

/-! ### What a projection is for -/

/-- The leaf is on the interface. -/
def ProcedureInterface.Names (interface : ProcedureInterface) (x : Leaf) : Prop :=
  x.localName interface = none

/-- Two states agree on everything but the locals. -/
structure ProcedureInterface.Same (interface : ProcedureInterface) (s s' : State) : Prop where
  undefined : s.SameUndefined s'
  memory : s.memory = s'.memory
  lookup : ∀ v, interface.isInterfaceScalar v.name → s.lookup v = s'.lookup v

/-- The formula `projected` says of the interface what `φ` says of it. -/
structure ProjectedOnto (interface : ProcedureInterface) (φ projected : Formula) : Prop where
  names : ∀ x ∈ projected.leaves, interface.Names x
  holds_iff : ∀ s, projected.Holds s ↔ ∃ s', interface.Same s s' ∧ φ.Holds s'

/-! ### When it works -/

section Condition

variable (interface : ProcedureInterface) (φ : Formula)

/-- The locals which the conjuncts define. -/
def definedLocals : List String := (collectLocalDefinitions interface φ []).map Prod.fst

/-- The definition of the first local reads the second outside of memory. -/
def UsesLocal (n m : String) : Prop :=
  ∃ t, (n, t) ∈ collectLocalDefinitions interface φ [] ∧ m ∈ t.nonInterfaceScalars interface

/-- Every local that a comparison among the conjuncts computes with is defined. Otherwise the walk
finds it. -/
def Settled : Prop :=
  ∀ v, .var v ∈ φ.operands → ¬ interface.isInterfaceScalar v.name →
    v.name ∈ definedLocals interface φ

/-- The locals in memories that terms read get eliminated: a comparison among the conjuncts computes
with each of them, and a definition that brings one in, possibly by way of other definitions, comes
before its own. -/
structure Eliminable : Prop where
  sort_unique : ∀ u v, .termVar u ∈ φ.leaves → .termVar v ∈ φ.leaves → u.name = v.name →
    u.name ∈ definedLocals interface φ → u.sort = v.sort
  compared : Settled interface φ → ∀ x ∈ φ.skippedLeaves,
    interface.Names x ∨ ∃ v, x = .termVar v ∧ .var v ∈ φ.operands
  ordered : Settled interface φ → ∀ m t, (m, t) ∈ collectLocalDefinitions interface φ [] →
    ∀ v, .termVar v ∈ t.skippedLeaves → ¬ interface.isInterfaceScalar v.name →
      ∀ n, ReflTransGen (UsesLocal interface φ) n m → n < v.name

end Condition

section Names

variable {interface : ProcedureInterface} {s s' s'' : State}

@[simp] theorem names_region (name : String) : interface.Names (.region name) := rfl

theorem names_termVar {v : Var} :
    interface.Names (.termVar v) ↔ interface.isInterfaceScalar v.name := by
  simp [ProcedureInterface.Names, Leaf.localName]

theorem names_boolVar {v : Var} :
    interface.Names (.boolVar v) ↔ interface.isInterfaceScalar v.name := by
  simp [ProcedureInterface.Names, Leaf.localName]

/-- What is on the interface reads the same in states that agree on the interface. -/
theorem ProcedureInterface.Same.leaf (h : interface.Same s s') {x : Leaf}
    (hx : interface.Names x) : x.Same s s' := by
  cases x with
  | boolVar v => exact h.lookup v (names_boolVar.1 hx)
  | termVar v => exact h.lookup v (names_termVar.1 hx)
  | region name => exact congrFun h.memory name

theorem ProcedureInterface.Same.refl (interface : ProcedureInterface) (s : State) :
    interface.Same s s := ⟨.refl s, rfl, fun _ _ ↦ rfl⟩

/-- Assigning a local keeps the interface. -/
theorem ProcedureInterface.Same.set (h : interface.Same s s') {v : Var}
    (hv : ¬ interface.isInterfaceScalar v.name) (x : Value) : interface.Same s (s'.set v x) where
  undefined := h.undefined.trans (by simp)
  memory := by rw [State.memory_set, h.memory]
  lookup w hw := by
    have hne : w ≠ v := fun heq ↦ hv (heq ▸ hw)
    rw [State.lookup_set_of_ne hne, h.lookup w hw]

end Names

/-! ### The definitions -/

/-- The formula is the conjunct, or a conjunction one of whose parts has it as a conjunct. -/
inductive Formula.HasConjunct : Formula → Formula → Prop
  | self (φ : Formula) : HasConjunct φ φ
  | and {items : List Formula} {item c : Formula} (hitem : item ∈ items)
      (h : HasConjunct item c) : HasConjunct (.and items) c

theorem Formula.HasConjunct.of {P : Formula → Prop} {φ c : Formula} (h : φ.HasConjunct c)
    (hP : ∀ items, P (.and items) → ∀ item ∈ items, P item) (hφ : P φ) : P c := by
  induction h with
  | self φ => exact hφ
  | and hitem _ ih => exact ih (hP _ hφ _ hitem)

section Definitions

variable {interface : ProcedureInterface} {φ : Formula} {p : String × Term}

theorem exists_var_of_localEqualityPair {lhs rhs : Term}
    (h : localEqualityPair interface lhs rhs = some p) :
    ∃ v : Var, lhs = .var v ∧ v.name = p.1 ∧ ¬ interface.isInterfaceScalar v.name ∧ p.2 = rhs := by
  unfold localEqualityPair at h
  split at h
  · rename_i v
    split_ifs at h with hv
    rw [← Option.some.inj h]
    exact ⟨v, rfl, rfl, hv, rfl⟩
  · cases h

/-- The formula equates the term of a definition with a local of its name. -/
def Formula.Equates (interface : ProcedureInterface) (φ : Formula) (p : String × Term) : Prop :=
  ∃ v : Var, v.name = p.1 ∧ ¬ interface.isInterfaceScalar v.name ∧
    (φ.HasConjunct (.eq (.var v) p.2) ∨ φ.HasConjunct (.eq p.2 (.var v)))

theorem Formula.Equates.and {items : List Formula} {item : Formula} (hitem : item ∈ items)
    (h : item.Equates interface p) : (Formula.and items).Equates interface p := by
  obtain ⟨v, hname, hlocal, heq⟩ := h
  exact ⟨v, hname, hlocal, heq.imp (.and hitem) (.and hitem)⟩

mutual

theorem equates_of_mem_collect : ∀ (φ : Formula) (out : TermSubstitution),
    p ∈ collectLocalDefinitions interface φ out → p ∈ out ∨ φ.Equates interface p
  | .eq lhs rhs, out, h => by
    rw [collectLocalDefinitions] at h
    split at h
    · rename_i hpair
      refine (mem_orInsert h).symm.imp_right fun hp ↦ ?_
      obtain ⟨v, rfl, hname, hlocal, hterm⟩ := exists_var_of_localEqualityPair (hp ▸ hpair)
      exact ⟨v, hname, hlocal, Or.inl (hterm ▸ .self _)⟩
    split at h
    · rename_i hpair
      refine (mem_orInsert h).symm.imp_right fun hp ↦ ?_
      obtain ⟨v, rfl, hname, hlocal, hterm⟩ := exists_var_of_localEqualityPair (hp ▸ hpair)
      exact ⟨v, hname, hlocal, Or.inr (hterm ▸ .self _)⟩
    · exact Or.inl h
  | .and items, out, h => by
    rw [collectLocalDefinitions] at h
    refine (equates_of_mem_collectAll items out h).imp_right fun hitems ↦ ?_
    obtain ⟨item, hitem, heq⟩ := hitems
    exact heq.and hitem
  | .tru, out, h | .fls, out, h | .var _, out, h | .not _, out, h | .or _, out, h
  | .implies _ _, out, h | .memoryEq _ _, out, h | .lt _ _, out, h | .le _ _, out, h
  | .gt _ _, out, h | .ge _ _, out, h => by
    rw [collectLocalDefinitions] at h
    exact Or.inl h

theorem equates_of_mem_collectAll : ∀ (items : List Formula) (out : TermSubstitution),
    p ∈ collectLocalDefinitionsAll interface items out →
      p ∈ out ∨ ∃ item ∈ items, item.Equates interface p
  | [], out, h => by
    rw [collectLocalDefinitionsAll] at h
    exact Or.inl h
  | item :: rest, out, h => by
    rw [collectLocalDefinitionsAll] at h
    rw [List.exists_mem_cons_iff]
    rcases equates_of_mem_collectAll rest _ h with hp | hrest
    · exact (equates_of_mem_collect item out hp).imp_right Or.inl
    · exact Or.inr (Or.inr hrest)

end

/-- What a definition of a formula comes with: the variable that it defines. -/
structure DefinedAs (interface : ProcedureInterface) (φ : Formula) (p : String × Term) (v : Var) :
    Prop where
  name : v.name = p.1
  notInterface : ¬ interface.isInterfaceScalar v.name
  operand : .var v ∈ φ.operands
  leaf : .termVar v ∈ φ.leaves
  skipped : ∀ x ∈ p.2.skippedLeaves, x ∈ φ.skippedLeaves
  sort : φ.Validated → p.2.sort = .ok v.sort
  value : ∀ s, φ.Holds s → s.lookup v = p.2.eval s

theorem sorts_of_validated_eq {lhs rhs : Term} (h : (Formula.eq lhs rhs).Validated) :
    ∃ σ, lhs.sort = .ok σ ∧ rhs.sort = .ok σ := by
  rw [Formula.Validated, Formula.validate, bind_eq_ok] at h
  obtain ⟨σ, hσ, -⟩ := h
  obtain ⟨hlhs, hrhs, -⟩ := numericOperands_eq_ok hσ
  exact ⟨σ, hlhs, hrhs⟩

theorem DefinedAs.of_hasConjunct {v : Var} {lhs rhs : Term}
    (h : φ.HasConjunct (.eq lhs rhs)) (hname : v.name = p.1)
    (hlocal : ¬ interface.isInterfaceScalar v.name)
    (hsides : lhs = .var v ∧ rhs = p.2 ∨ lhs = p.2 ∧ rhs = .var v) :
    DefinedAs interface φ p v := by
  have hoperands : ∀ u ∈ (Formula.eq lhs rhs).operands, u ∈ φ.operands := by
    refine h.of (P := fun ψ ↦ ∀ u ∈ ψ.operands, u ∈ φ.operands)
      (fun items hand item hitem u hu ↦ ?_)
      fun _ hu ↦ hu
    exact hand u (by rw [Formula.operands, Formula.mem_operandsList]; exact ⟨item, hitem, hu⟩)
  have hleaves : ∀ x ∈ (Formula.eq lhs rhs).leaves, x ∈ φ.leaves :=
    h.of (P := fun ψ ↦ ∀ x ∈ ψ.leaves, x ∈ φ.leaves)
      (fun items hand ↦ ((hereditary_leaves _).and_iff items).1 hand) fun _ hx ↦ hx
  have hskipped : ∀ x ∈ (Formula.eq lhs rhs).skippedLeaves, x ∈ φ.skippedLeaves :=
    (h.of (fun items ↦ ((hereditary_reads (fun _ ↦ True) (· ∈ φ.skippedLeaves)).and_iff items).1)
      ⟨fun _ _ ↦ trivial, fun _ hx ↦ hx⟩).2
  have hvalidated (hφ : φ.Validated) : (Formula.eq lhs rhs).Validated :=
    h.of (fun items ↦ (hereditary_validated.and_iff items).1) hφ
  have hholds (s : State) (hφ : φ.Holds s) : (Formula.eq lhs rhs).Holds s :=
    h.of (P := fun ψ ↦ ψ.Holds s) (fun items ↦ (Formula.holds_and s items).1) hφ
  rw [Formula.operands] at hoperands
  rw [Formula.leaves] at hleaves
  rw [Formula.skippedLeaves] at hskipped
  rcases hsides with ⟨rfl, rfl⟩ | ⟨rfl, rfl⟩
  · refine ⟨hname, hlocal, hoperands _ (List.mem_append_left _ (Term.mem_operands_self _)),
      hleaves _ (List.mem_append_left _ (by simp [Term.leaves])),
      fun x hx ↦ hskipped x (List.mem_append_right _ hx), fun hφ ↦ ?_, fun s hs ↦ ?_⟩
    · obtain ⟨σ, hlhs, hrhs⟩ := sorts_of_validated_eq (hvalidated hφ)
      rw [Term.sort] at hlhs
      rw [hrhs, hlhs]
    · exact (Formula.eval_eq_of_holds_eq (hholds s hs)).1
  · refine ⟨hname, hlocal, hoperands _ (List.mem_append_right _ (Term.mem_operands_self _)),
      hleaves _ (List.mem_append_right _ (by simp [Term.leaves])),
      fun x hx ↦ hskipped x (List.mem_append_left _ hx), fun hφ ↦ ?_, fun s hs ↦ ?_⟩
    · obtain ⟨σ, hlhs, hrhs⟩ := sorts_of_validated_eq (hvalidated hφ)
      rw [Term.sort] at hrhs
      rw [hlhs, hrhs]
    · exact (Formula.eval_eq_of_holds_eq (hholds s hs)).1.symm

/-- **What a collected definition defines.** -/
theorem exists_definedAs (h : p ∈ collectLocalDefinitions interface φ []) :
    ∃ v, DefinedAs interface φ p v := by
  have hequates := (equates_of_mem_collect φ [] h).resolve_left (List.not_mem_nil)
  obtain ⟨v, hname, hlocal, hconj | hconj⟩ := hequates
  · exact ⟨v, .of_hasConjunct hconj hname hlocal (Or.inl ⟨rfl, rfl⟩)⟩
  · exact ⟨v, .of_hasConjunct hconj hname hlocal (Or.inr ⟨rfl, rfl⟩)⟩

end Definitions

/-! ### Names in order -/

section Order

variable {interface : ProcedureInterface} {subst : TermSubstitution} {name : String} {term : Term}

theorem pairwise_orInsert (h : (subst.map Prod.fst).Pairwise (· < ·)) :
    ((subst.orInsert name term).map Prod.fst).Pairwise (· < ·) := by
  induction subst with
  | nil => exact List.pairwise_singleton _ _
  | cons p rest ih =>
    obtain ⟨other, old⟩ := p
    rw [List.map_cons, List.pairwise_cons] at h
    rw [TermSubstitution.orInsert]
    split_ifs with heq hlt
    · exact List.pairwise_cons.2 h
    · refine List.pairwise_cons.2 ⟨fun m hm ↦ ?_, List.pairwise_cons.2 h⟩
      rcases List.mem_cons.1 hm with rfl | hm
      · exact hlt
      · exact hlt.trans (h.1 m hm)
    · refine List.pairwise_cons.2 ⟨fun m hm ↦ ?_, ih h.2⟩
      obtain ⟨q, hq, rfl⟩ := List.mem_map.1 hm
      rcases mem_orInsert hq with rfl | hq
      · exact lt_of_le_of_ne (not_lt.1 hlt) (Ne.symm heq)
      · exact h.1 _ (List.mem_map_of_mem hq)

mutual

theorem pairwise_collect : ∀ (φ : Formula) (out : TermSubstitution),
    (out.map Prod.fst).Pairwise (· < ·) →
      ((collectLocalDefinitions interface φ out).map Prod.fst).Pairwise (· < ·)
  | .eq lhs rhs, out, h => by
    rw [collectLocalDefinitions]
    split
    · exact pairwise_orInsert h
    split
    · exact pairwise_orInsert h
    · exact h
  | .and items, out, h => by
    rw [collectLocalDefinitions]
    exact pairwise_collectAll items out h
  | .tru, _, h | .fls, _, h | .var _, _, h | .not _, _, h | .or _, _, h | .implies _ _, _, h
  | .memoryEq _ _, _, h | .lt _ _, _, h | .le _ _, _, h | .gt _ _, _, h | .ge _ _, _, h => by
    rw [collectLocalDefinitions]
    exact h

theorem pairwise_collectAll : ∀ (items : List Formula) (out : TermSubstitution),
    (out.map Prod.fst).Pairwise (· < ·) →
      ((collectLocalDefinitionsAll interface items out).map Prod.fst).Pairwise (· < ·)
  | [], _, h => by
    rw [collectLocalDefinitionsAll]
    exact h
  | item :: rest, out, h => by
    rw [collectLocalDefinitionsAll]
    exact pairwise_collectAll rest _ (pairwise_collect item out h)

end

end Order

/-! ### Resolution -/

section Resolution

variable {interface : ProcedureInterface} {φ : Formula} {subst : TermSubstitution}

/-- What every round of the resolution keeps holds after it. -/
theorem resolve_induction {P : TermSubstitution → Prop}
    (hround : ∀ subst, P subst → P subst.resolveRound) (rounds : ℕ) (h : P subst) :
    P (resolveSubstitutionChain rounds subst) := by
  induction rounds generalizing subst with
  | zero => exact h
  | succ rounds ih =>
    rw [resolveSubstitutionChain]
    split_ifs
    · exact h
    · exact ih (hround _ h)

theorem map_fst_resolvedDefinitions :
    (resolvedDefinitions interface φ).map Prod.fst = definedLocals interface φ := by
  refine resolve_induction (P := fun subst ↦ subst.map Prod.fst = definedLocals interface φ)
    (fun subst h ↦ ?_) 8 rfl
  rw [TermSubstitution.resolveRound, List.map_map, ← h]
  rfl

theorem pairwise_resolvedDefinitions :
    ((resolvedDefinitions interface φ).map Prod.fst).Pairwise (· < ·) := by
  rw [map_fst_resolvedDefinitions]
  exact pairwise_collect φ [] List.Pairwise.nil

theorem mem_definedLocals {n : String} :
    n ∈ definedLocals interface φ ↔ ∃ t, (n, t) ∈ collectLocalDefinitions interface φ [] := by
  simp [definedLocals]

theorem exists_definedAs_of_mem_definedLocals {n : String} (h : n ∈ definedLocals interface φ) :
    ∃ t v, (n, t) ∈ collectLocalDefinitions interface φ [] ∧ DefinedAs interface φ (n, t) v := by
  obtain ⟨t, ht⟩ := mem_definedLocals.1 h
  obtain ⟨v, hv⟩ := exists_definedAs ht
  exact ⟨t, v, ht, hv⟩

theorem not_isInterfaceScalar_of_mem_definedLocals {n : String}
    (h : n ∈ definedLocals interface φ) : ¬ interface.isInterfaceScalar n := by
  obtain ⟨t, v, -, hv⟩ := exists_definedAs_of_mem_definedLocals h
  have hname : v.name = n := hv.name
  exact hname ▸ hv.notInterface

/-- The local is reached from the definition. -/
def ReachedFrom (interface : ProcedureInterface) (φ : Formula) (n : String) (x : Leaf) : Prop :=
  ∀ m, x.localName interface = some m → ReflTransGen (UsesLocal interface φ) n m

/-- The leaf is on the interface, or an operand whose definition comes after all that lead to the
definition of `n`. -/
def ComesAfter (interface : ProcedureInterface) (φ : Formula) (n : String) (x : Leaf) : Prop :=
  interface.Names x ∨ ∃ v, x = .termVar v ∧ .var v ∈ φ.operands ∧
    ∀ k, ReflTransGen (UsesLocal interface φ) k n → k < v.name

theorem ReachedFrom.trans {n m : String} {x : Leaf}
    (h : ReflTransGen (UsesLocal interface φ) n m) (hx : ReachedFrom interface φ m x) :
    ReachedFrom interface φ n x :=
  fun k hk ↦ h.trans (hx k hk)

theorem ComesAfter.trans {n m : String} {x : Leaf}
    (h : ReflTransGen (UsesLocal interface φ) n m) (hx : ComesAfter interface φ m x) :
    ComesAfter interface φ n x := by
  refine hx.imp_right fun ⟨v, hv, hoperand, hafter⟩ ↦ ⟨v, hv, hoperand, fun k hk ↦ ?_⟩
  exact hafter k (hk.trans h)

theorem reads_of_mem_collect (h : Eliminable interface φ) (hsettled : Settled interface φ)
    {p : String × Term} (hp : p ∈ collectLocalDefinitions interface φ []) :
    p.2.Reads (ReachedFrom interface φ p.1) (ComesAfter interface φ p.1) := by
  constructor
  · intro x hx m hm
    refine ReflTransGen.single ⟨p.2, hp, ?_⟩
    rw [Term.nonInterfaceScalars_eq, List.mem_filterMap]
    exact ⟨x, hx, hm⟩
  · intro x hx
    obtain ⟨w, hw⟩ := exists_definedAs hp
    rcases h.compared hsettled x (hw.skipped x hx) with hnames | ⟨v, rfl, hoperand⟩
    · exact Or.inl hnames
    · by_cases hv : interface.isInterfaceScalar v.name
      · exact Or.inl (names_termVar.2 hv)
      · exact Or.inr ⟨v, rfl, hoperand, h.ordered hsettled p.1 p.2 hp v hx hv⟩

/-- What the resolved definitions read. -/
theorem reads_of_mem_resolved (h : Eliminable interface φ) (hsettled : Settled interface φ)
    {p : String × Term} (hp : p ∈ resolvedDefinitions interface φ) :
    p.2.Reads (ReachedFrom interface φ p.1) (ComesAfter interface φ p.1) := by
  refine (resolve_induction (P := fun subst ↦ subst.map Prod.fst = definedLocals interface φ ∧
      ∀ p ∈ subst, p.2.Reads (ReachedFrom interface φ p.1) (ComesAfter interface φ p.1))
    (fun subst hsubst ↦ ?_) 8 ⟨rfl, fun q hq ↦ reads_of_mem_collect h hsettled hq⟩).2 p hp
  obtain ⟨hnames, hreads⟩ := hsubst
  constructor
  · rw [TermSubstitution.resolveRound, List.map_map, ← hnames]
    rfl
  · intro q' hq'
    obtain ⟨q, hq, rfl⟩ := List.mem_map.1 hq'
    refine reads_applySubstToTerm ⟨fun v hv t ht ↦ ?_, fun _ hx ↦ hx, fun _ hx ↦ hx⟩ q.2
      (hreads q hq)
    -- What the definition of a local reads is reached by way of that local.
    have hmem := mem_of_lookup_eq_some ht
    have hdefined : v.name ∈ definedLocals interface φ :=
      hnames ▸ List.mem_map_of_mem (f := Prod.fst) hmem
    have hlocal := not_isInterfaceScalar_of_mem_definedLocals hdefined
    have hreach : ReflTransGen (UsesLocal interface φ) q.1 v.name :=
      hv v.name (by simp [Leaf.localName, hlocal])
    obtain ⟨hscanned, hskipped⟩ := hreads _ hmem
    exact ⟨fun x hx ↦ (hscanned x hx).trans hreach, fun x hx ↦ (hskipped x hx).trans hreach⟩

end Resolution

/-! ### One substitution after the other -/

/-- `substituteDefinitions` on a term. -/
def substituteDefinitionsInTerm (subst : TermSubstitution) (t : Term) : Term :=
  subst.foldl (fun t p ↦ substituteVarInTerm ⟨p.1, guessSortOf p.2⟩ p.2 t) t

theorem LeafMap.onlyTerms_replaceVar (target : Var) (replacement : Term) :
    (LeafMap.replaceVar target replacement).OnlyTerms :=
  ⟨fun _ ↦ rfl, fun _ ↦ rfl⟩

theorem substituteVarInTerm_self (v : Var) (t : Term) : substituteVarInTerm v t (.var v) = t :=
  if_pos rfl

theorem substituteVarInTerm_of_ne {v w : Var} (h : w ≠ v) (t : Term) :
    substituteVarInTerm v t (.var w) = .var w :=
  if_neg h

section Images

variable {interface : ProcedureInterface} {subst : TermSubstitution}

theorem substituteDefinitionsInTerm_append (pre post : TermSubstitution) (t : Term) :
    substituteDefinitionsInTerm (pre ++ post) t =
      substituteDefinitionsInTerm post (substituteDefinitionsInTerm pre t) :=
  List.foldl_append

/-- A variable that is none of the defined ones stays. -/
theorem substituteDefinitionsInTerm_var {v : Var}
    (h : ∀ p ∈ subst, v ≠ ⟨p.1, guessSortOf p.2⟩) :
    substituteDefinitionsInTerm subst (.var v) = .var v := by
  induction subst with
  | nil => rfl
  | cons p rest ih =>
    rw [List.forall_mem_cons] at h
    rw [substituteDefinitionsInTerm, List.foldl_cons, substituteVarInTerm_of_ne h.1]
    exact ih h.2

theorem substituteDefinitionsInTerm_boolToInt_var (v : Var) :
    substituteDefinitionsInTerm subst (.boolToInt (.var v)) = .boolToInt (.var v) := by
  induction subst with
  | nil => rfl
  | cons p rest ih => exact ih

theorem substituteDefinitions_fls : substituteDefinitions subst .fls = .fls := by
  induction subst with
  | nil => rfl
  | cons p rest ih => exact ih

/-- A formula that collapses at the first substitution stays collapsed. -/
theorem substituteDefinitions_cons_fls {p : String × Term} {φ : Formula}
    (h : substituteVarInFormula ⟨p.1, guessSortOf p.2⟩ p.2 φ = .fls) :
    substituteDefinitions (p :: subst) φ = .fls := by
  have hrest : substituteDefinitions (p :: subst) φ = substituteDefinitions subst .fls :=
    congrArg (substituteDefinitions subst) h
  exact hrest.trans substituteDefinitions_fls

theorem substituteDefinitions_mem_operands {φ : Formula} {u : Term} (h : u ∈ φ.operands) :
    substituteDefinitions subst φ = .fls ∨
      substituteDefinitionsInTerm subst u ∈ (substituteDefinitions subst φ).operands := by
  induction subst generalizing φ u with
  | nil => exact Or.inr h
  | cons p rest ih =>
    rcases Formula.rebuild_mem_operands
      (m := .replaceVar ⟨p.1, guessSortOf p.2⟩ p.2) φ h with hfls | hmem
    · exact Or.inl (substituteDefinitions_cons_fls hfls)
    · exact ih hmem

/-- After the substitutions, the memories which the term reads are free of locals. -/
def CleanAfter (interface : ProcedureInterface) (subst : TermSubstitution) (t : Term) : Prop :=
  (substituteDefinitionsInTerm subst t).Reads (fun _ ↦ True) interface.Names

/-- After the substitutions, the whole term is free of locals. -/
def FreeAfter (interface : ProcedureInterface) (subst : TermSubstitution) (t : Term) : Prop :=
  (substituteDefinitionsInTerm subst t).Reads interface.Names interface.Names

theorem LeafMap.builds_replaceVar {T T' H' : Term → Prop} {v : Var} {r : Term}
    (h : ∀ t, T t → T' (substituteVarInTerm v r t)) : (LeafMap.replaceVar v r).Builds T T' H' :=
  fun t ht ↦ Term.builtFrom_self (h t ht)

theorem blocksRead_nil : BlocksRead (CleanAfter interface []) (FreeAfter interface [])
    (fun _ ↦ True) interface.Names :=
  ⟨fun _ h ↦ h, fun _ h ↦ h, fun name ↦ ⟨trivial, names_region name⟩⟩

/-- A term is clean after the substitutions if it is built from terms that are. -/
theorem Term.BuiltFrom.cleanAfter {t : Term}
    (h : t.BuiltFrom (CleanAfter interface subst) (FreeAfter interface subst)) :
    CleanAfter interface subst t := by
  induction subst generalizing t with
  | nil => exact Term.reads_of_builtFrom t blocksRead_nil h
  | cons p rest ih =>
    exact ih (Term.builtFrom_rebuild (LeafMap.onlyTerms_replaceVar _ _) t
      (LeafMap.builds_replaceVar fun _ hu ↦ hu) (LeafMap.builds_replaceVar fun _ hu ↦ hu) h)

/-- A formula is clean after the substitutions if it is built from terms that are. -/
theorem Formula.BuiltFrom.clean {φ : Formula}
    (h : φ.BuiltFrom (CleanAfter interface subst) (FreeAfter interface subst)) :
    (substituteDefinitions subst φ).Reads (fun _ ↦ True) interface.Names := by
  induction subst generalizing φ with
  | nil => exact Formula.reads_of_builtFrom φ blocksRead_nil h
  | cons p rest ih =>
    exact ih (Formula.builtFrom_rebuild (LeafMap.onlyTerms_replaceVar _ _) φ
      (LeafMap.builds_replaceVar fun _ hu ↦ hu) (LeafMap.builds_replaceVar fun _ hu ↦ hu) h)

theorem cleanAfter_boolToInt_var (v : Var) : CleanAfter interface subst (.boolToInt (.var v)) := by
  rw [CleanAfter, substituteDefinitionsInTerm_boolToInt_var]
  simp [Term.Reads, Term.skippedLeaves, Formula.skippedLeaves]

/-- A variable on the interface is free of locals after the substitutions of locals. -/
theorem isBlock_freeAfter_of_names {x : Leaf} (hx : interface.Names x)
    (hsubst : ∀ p ∈ subst, ¬ interface.isInterfaceScalar p.1) :
    x.IsBlock (FreeAfter interface subst) := by
  cases x with
  | region name => trivial
  | boolVar v =>
    show (substituteDefinitionsInTerm subst (.boolToInt (.var v))).Reads _ _
    rw [substituteDefinitionsInTerm_boolToInt_var]
    simpa [Term.Reads, Term.scannedLeaves, Formula.scannedLeaves, Term.skippedLeaves,
      Formula.skippedLeaves] using hx
  | termVar v =>
    have hv : interface.isInterfaceScalar v.name := names_termVar.1 hx
    have hne : ∀ p ∈ subst, v ≠ ⟨p.1, guessSortOf p.2⟩ :=
      fun p hp heq ↦ hsubst p hp (by rw [heq] at hv; exact hv)
    show (substituteDefinitionsInTerm subst (.var v)).Reads _ _
    rw [substituteDefinitionsInTerm_var hne]
    simpa [Term.Reads, Term.scannedLeaves, Term.skippedLeaves] using hx

end Images

/-! ### No local is left -/

section Leaves

variable {interface : ProcedureInterface} {φ : Formula}

theorem not_isInterfaceScalar_of_mem_resolved {p : String × Term}
    (hp : p ∈ resolvedDefinitions interface φ) : ¬ interface.isInterfaceScalar p.1 := by
  refine not_isInterfaceScalar_of_mem_definedLocals (φ := φ) ?_
  rw [← map_fst_resolvedDefinitions]
  exact List.mem_map_of_mem hp

/-- The walk finds no local in what the substitutions make of an operand. -/
def OperandsSeen (interface : ProcedureInterface) (φ : Formula) : Prop :=
  ∀ u ∈ φ.operands,
    (substituteDefinitionsInTerm (resolvedDefinitions interface φ) u).Reads interface.Names
      fun _ ↦ True

theorem operandsSeen {projected : Formula}
    (hproject : projectToInterface interface φ = some projected)
    (hfls : projected ≠ .fls) : OperandsSeen interface φ := by
  obtain ⟨rfl, hscan⟩ := projectToInterface_eq_some.1 hproject
  intro u hu
  have hoperand := (substituteDefinitions_mem_operands hu).resolve_left hfls
  refine Formula.Reads.operand _ ⟨fun x hx ↦ ?_, fun _ _ ↦ trivial⟩ hoperand
  rw [Formula.nonInterfaceScalars_eq, List.filterMap_eq_nil_iff] at hscan
  exact hscan x hx

/-- A local operand is one of the variables that are substituted. -/
theorem OperandsSeen.exists_mem (h : OperandsSeen interface φ) {v : Var}
    (hv : .var v ∈ φ.operands) (hlocal : ¬ interface.isInterfaceScalar v.name) :
    ∃ p ∈ resolvedDefinitions interface φ, v = ⟨p.1, guessSortOf p.2⟩ := by
  by_contra hnone
  push Not at hnone
  have hreads := (h _ hv).1
  rw [substituteDefinitionsInTerm_var hnone] at hreads
  exact hlocal (names_termVar.1 (hreads (.termVar v) (by simp [Term.scannedLeaves])))

theorem OperandsSeen.settled (h : OperandsSeen interface φ) : Settled interface φ := by
  intro v hv hlocal
  obtain ⟨p, hp, rfl⟩ := h.exists_mem hv hlocal
  rw [← map_fst_resolvedDefinitions]
  exact List.mem_map_of_mem hp

/-- The names of the definitions up to one of them. -/
theorem fst_le_of_mem_append {pre rest : TermSubstitution} {p q : String × Term}
    (hsplit : resolvedDefinitions interface φ = pre ++ p :: rest) (hq : q ∈ pre ++ [p]) :
    q.1 ≤ p.1 := by
  have hsorted : ((resolvedDefinitions interface φ).map Prod.fst).Pairwise (· < ·) :=
    pairwise_resolvedDefinitions
  rw [hsplit, List.map_append, List.pairwise_append] at hsorted
  rcases List.mem_append.1 hq with hq | hq
  · exact (hsorted.2.2 _ (List.mem_map_of_mem hq) _ (by simp)).le
  · rw [List.mem_singleton.1 hq]

/-- From every definition on, the substitutions leave no local in a memory that is read. -/
theorem cleanAfter_var (h : Eliminable interface φ) (hseen : OperandsSeen interface φ)
    {pre post : TermSubstitution} (hsplit : resolvedDefinitions interface φ = pre ++ post)
    (v : Var) : CleanAfter interface post (.var v) := by
  induction post generalizing pre v with
  | nil => simp [CleanAfter, substituteDefinitionsInTerm, Term.Reads, Term.skippedLeaves]
  | cons p rest ih =>
    have hsplit' : resolvedDefinitions interface φ = (pre ++ [p]) ++ rest := by
      rw [hsplit, List.append_assoc, List.singleton_append]
    have hrest (w : Var) : CleanAfter interface rest (.var w) := ih hsplit' w
    have hmem : ∀ q ∈ rest, q ∈ resolvedDefinitions interface φ := fun q hq ↦
      hsplit ▸ List.mem_append_right _ (List.mem_cons_of_mem _ hq)
    have hp : p ∈ resolvedDefinitions interface φ :=
      hsplit ▸ List.mem_append_right _ List.mem_cons_self
    by_cases hv : v = ⟨p.1, guessSortOf p.2⟩
    · subst hv
      show CleanAfter interface rest
        (substituteVarInTerm ⟨p.1, guessSortOf p.2⟩ p.2 (.var ⟨p.1, guessSortOf p.2⟩))
      rw [substituteVarInTerm_self]
      refine Term.BuiltFrom.cleanAfter (Term.builtFrom_of_reads p.2 (V := fun _ ↦ True)
        (fun x _ ↦ ?_) (fun x hx ↦ ?_)
        ⟨fun _ _ ↦ trivial, (reads_of_mem_resolved h hseen.settled hp).2⟩)
      · cases x with
        | region name => trivial
        | termVar w => exact hrest w
        | boolVar w => exact cleanAfter_boolToInt_var w
      · rcases hx with hx | ⟨w, rfl, hoperand, hafter⟩
        · exact isBlock_freeAfter_of_names hx fun q hq ↦
            not_isInterfaceScalar_of_mem_resolved (hmem q hq)
        · -- Nothing up to `p` replaces `w`, so the walk has seen what the rest makes of it.
          have hstays : substituteDefinitionsInTerm (pre ++ [p]) (.var w) = .var w := by
            refine substituteDefinitionsInTerm_var fun q hq heq ↦ ?_
            have hle := fst_le_of_mem_append hsplit hq
            have hlt := hafter p.1 .refl
            rw [heq] at hlt
            exact absurd (hle.trans_lt hlt) (lt_irrefl _)
          have hw := hseen _ hoperand
          rw [hsplit, ← List.singleton_append, ← List.append_assoc,
            substituteDefinitionsInTerm_append, hstays] at hw
          exact ⟨hw.1, (hrest w).2⟩
    · show CleanAfter interface rest (substituteVarInTerm ⟨p.1, guessSortOf p.2⟩ p.2 (.var v))
      rw [substituteVarInTerm_of_ne hv]
      exact hrest v

/-- **No local is left.** -/
theorem names_of_projectToInterface (h : Eliminable interface φ) {projected : Formula}
    (hproject : projectToInterface interface φ = some projected) :
    ∀ x ∈ projected.leaves, interface.Names x := by
  by_cases hfls : projected = .fls
  · simp [hfls, Formula.leaves]
  have hseen := operandsSeen hproject hfls
  have hinterface : ∀ p ∈ resolvedDefinitions interface φ, ¬ interface.isInterfaceScalar p.1 :=
    fun p hp ↦ not_isInterfaceScalar_of_mem_resolved hp
  have hclean (v : Var) : CleanAfter interface (resolvedDefinitions interface φ) (.var v) :=
    cleanAfter_var h hseen (List.nil_append _).symm v
  have hbuilt : φ.BuiltFrom (CleanAfter interface (resolvedDefinitions interface φ))
      (FreeAfter interface (resolvedDefinitions interface φ)) := by
    refine Formula.builtFrom_of_reads φ (V := fun _ ↦ True) (fun x _ ↦ ?_) (fun x hx ↦ ?_)
      ⟨fun _ _ ↦ trivial, h.compared hseen.settled⟩
    · cases x with
      | region name => trivial
      | termVar v => exact hclean v
      | boolVar v => exact cleanAfter_boolToInt_var v
    · rcases hx with hx | ⟨v, rfl, hoperand⟩
      · exact isBlock_freeAfter_of_names hx hinterface
      · exact ⟨(hseen _ hoperand).1, (hclean v).2⟩
  obtain ⟨rfl, hscan⟩ := projectToInterface_eq_some.1 hproject
  rw [Formula.nonInterfaceScalars_eq, List.filterMap_eq_nil_iff] at hscan
  intro x hx
  exact ((Formula.mem_leaves _).1 hx).elim (hscan x) (hbuilt.clean.2 x)

end Leaves

/-! ### Sorts -/

section Sorts

variable {interface : ProcedureInterface} {φ : Formula} {subst : TermSubstitution} {Q : Leaf → Prop}

theorem numericOperands_ok {σ : VarSort} (hσ : σ ≠ .bool) :
    numericOperands (.ok σ) (.ok σ) = .ok σ := by
  simp only [numericOperands]
  simp [hσ]

/-- The definitions have the sorts of the variables that they are put in for. -/
def TermSubstitution.KeepsSorts (subst : TermSubstitution) (Q : Leaf → Prop) : Prop :=
  ∀ v, Q (.termVar v) → ∀ t, subst.lookup v.name = some t → t.sort = .ok v.sort

mutual

theorem sort_applySubstToTerm (hs : subst.KeepsSorts Q) : ∀ (t : Term) {σ : VarSort},
    (∀ x ∈ t.leaves, Q x) → t.sort = .ok σ → (applySubstToTerm subst t).sort = .ok σ
  | .var v, σ, hQ, h => by
    rw [applySubstToTerm]
    cases hlookup : subst.lookup v.name with
    | none => exact h
    | some t =>
      rw [Term.sort] at h
      rw [← h]
      exact hs v (hQ _ (by simp [Term.leaves])) t hlookup
  | .int _, _, _, h | .real _, _, _, h => h
  | .boolToInt value, σ, hQ, h => by
    simp only [Term.leaves] at hQ
    rw [Term.sort, bind_eq_ok] at h
    obtain ⟨⟨⟩, hvalue, h⟩ := h
    have hvalid := validated_applySubstToFormula hs value hQ hvalue
    rw [applySubstToTerm, Term.sort, bind_eq_ok]
    exact ⟨(), hvalid, h⟩
  | .select memory index, σ, hQ, h => by
    simp only [Term.leaves, List.mem_append, or_imp, forall_and] at hQ
    rw [Term.sort, bind_eq_ok] at h
    obtain ⟨τ, hindex, h⟩ := h
    rw [applySubstToTerm, Term.sort, bind_eq_ok]
    exact ⟨τ, sort_applySubstToTerm hs index hQ.2 hindex, h⟩
  | .add lhs rhs, σ, hQ, h | .sub lhs rhs, σ, hQ, h | .mul lhs rhs, σ, hQ, h
  | .div lhs rhs, σ, hQ, h | .rem lhs rhs, σ, hQ, h => by
    simp only [Term.leaves, List.mem_append, or_imp, forall_and] at hQ
    rw [Term.sort] at h
    obtain ⟨hlhs, hrhs, hσ⟩ := numericOperands_eq_ok h
    rw [applySubstToTerm, Term.sort, sort_applySubstToTerm hs lhs hQ.1 hlhs,
      sort_applySubstToTerm hs rhs hQ.2 hrhs, numericOperands_ok hσ]
  | .neg inner, σ, hQ, h => by
    simp only [Term.leaves] at hQ
    rw [Term.sort, bind_eq_ok] at h
    obtain ⟨τ, hinner, h⟩ := h
    rw [applySubstToTerm, Term.sort, bind_eq_ok]
    exact ⟨τ, sort_applySubstToTerm hs inner hQ hinner, h⟩

/-- Resolving definitions keeps formulas well sorted. -/
theorem validated_applySubstToFormula (hs : subst.KeepsSorts Q) : ∀ φ : Formula,
    (∀ x ∈ φ.leaves, Q x) → φ.Validated → (applySubstToFormula subst φ).Validated
  | .tru, _, h | .fls, _, h | .var _, _, h | .memoryEq _ _, _, h => h
  | .not inner, hQ, h => by
    simp only [Formula.leaves] at hQ
    rw [applySubstToFormula, hereditary_validated.not_iff]
    exact validated_applySubstToFormula hs inner hQ ((hereditary_validated.not_iff inner).1 h)
  | .and items, hQ, h => by
    simp only [Formula.leaves] at hQ
    rw [applySubstToFormula]
    refine hereditary_validated.andMany ?_
    exact validated_applySubstToFormulas hs items hQ ((hereditary_validated.and_iff items).1 h)
  | .or items, hQ, h => by
    simp only [Formula.leaves] at hQ
    rw [applySubstToFormula]
    refine hereditary_validated.orMany ?_
    exact validated_applySubstToFormulas hs items hQ ((hereditary_validated.or_iff items).1 h)
  | .implies lhs rhs, hQ, h => by
    simp only [Formula.leaves, List.mem_append, or_imp, forall_and] at hQ
    obtain ⟨hlhs, hrhs⟩ := (hereditary_validated.implies_iff lhs rhs).1 h
    rw [applySubstToFormula]
    exact hereditary_validated.mkImplies (validated_applySubstToFormula hs lhs hQ.1 hlhs)
      (validated_applySubstToFormula hs rhs hQ.2 hrhs)
  | .eq lhs rhs, hQ, h | .lt lhs rhs, hQ, h | .le lhs rhs, hQ, h | .gt lhs rhs, hQ, h
  | .ge lhs rhs, hQ, h => by
    simp only [Formula.leaves, List.mem_append, or_imp, forall_and] at hQ
    rw [Formula.Validated, Formula.validate, bind_eq_ok] at h
    obtain ⟨σ, hsides, -⟩ := h
    obtain ⟨hlhs, hrhs, hσ⟩ := numericOperands_eq_ok hsides
    rw [applySubstToFormula, Formula.Validated, Formula.validate,
      sort_applySubstToTerm hs lhs hQ.1 hlhs, sort_applySubstToTerm hs rhs hQ.2 hrhs,
      numericOperands_ok hσ]
    rfl

theorem validated_applySubstToFormulas (hs : subst.KeepsSorts Q) : ∀ items : List Formula,
    (∀ x ∈ Formula.leavesList items, Q x) → (∀ φ ∈ items, φ.Validated) →
      ∀ φ ∈ applySubstToFormulas subst items, φ.Validated
  | [], _, _ => by simp [applySubstToFormulas]
  | item :: rest, hQ, h => by
    simp only [Formula.leavesList, List.mem_append, or_imp, forall_and] at hQ
    rw [List.forall_mem_cons] at h
    rw [applySubstToFormulas, List.forall_mem_cons]
    exact ⟨validated_applySubstToFormula hs item hQ.1 h.1,
      validated_applySubstToFormulas hs rest hQ.2 h.2⟩

end

/-- A definition has the sort of the variables with its name. -/
def SortsAgree (φ : Formula) (subst : TermSubstitution) : Prop :=
  ∀ p ∈ subst, (∀ x ∈ p.2.leaves, x ∈ φ.leaves) ∧
    ∀ v : Var, .termVar v ∈ φ.leaves → v.name = p.1 → p.2.sort = .ok v.sort

theorem SortsAgree.resolveRound (h : SortsAgree φ subst) : SortsAgree φ subst.resolveRound := by
  have hkeeps : subst.KeepsSorts (· ∈ φ.leaves) := fun v hv t ht ↦
    (h _ (mem_of_lookup_eq_some ht)).2 v hv rfl
  intro q' hq'
  obtain ⟨q, hq, rfl⟩ := List.mem_map.1 hq'
  obtain ⟨hleaves, hsort⟩ := h q hq
  exact ⟨forall_leaves_applySubstToTerm (fun p hp ↦ (h p hp).1) q.2 hleaves,
    fun v hv hname ↦ sort_applySubstToTerm hkeeps q.2 hleaves (hsort v hv hname)⟩

theorem DefinedAs.eq_of_leaf (h : Eliminable interface φ) {p : String × Term}
    (hp : p ∈ collectLocalDefinitions interface φ []) {v w : Var}
    (hw : DefinedAs interface φ p w) (hv : .termVar v ∈ φ.leaves) (hname : v.name = p.1) :
    v = w := by
  have hnames : v.name = w.name := hname.trans hw.name.symm
  have hdefined : v.name ∈ definedLocals interface φ := hname ▸ List.mem_map_of_mem hp
  have hsorts : v.sort = w.sort := h.sort_unique v w hv hw.leaf hnames hdefined
  cases v
  cases w
  simp_all

theorem sortsAgree_resolved (h : Eliminable interface φ) (hφ : φ.Validated) :
    SortsAgree φ (resolvedDefinitions interface φ) := by
  refine resolve_induction (fun subst hsubst ↦ hsubst.resolveRound) 8 fun p hp ↦ ⟨?_, ?_⟩
  · exact leaves_of_mem_collect φ [] (fun _ hx ↦ hx) (by simp) p hp
  · intro v hv hname
    obtain ⟨w, hw⟩ := exists_definedAs hp
    rw [hw.eq_of_leaf h hp hv hname]
    exact hw.sort hφ

end Sorts

/-! ### States -/

/-- The state in which the definitions are carried out, the last one first. -/
noncomputable def State.define : TermSubstitution → State → State
  | [], s => s
  | p :: rest, s => (define rest s).set ⟨p.1, guessSortOf p.2⟩ (p.2.eval (define rest s))

section States

variable {interface : ProcedureInterface} {φ projected : Formula} {subst : TermSubstitution}
  {s : State}

theorem guessSortOf_ne_bool (t : Term) : guessSortOf t ≠ .bool := by
  cases t <;> simp [guessSortOf]

/-- Substituting the definitions is evaluating where they are carried out. -/
theorem eval_substituteDefinitions (h : ∀ p ∈ subst, p.2.sort = .ok (guessSortOf p.2)) :
    (substituteDefinitions subst φ).eval s = φ.eval (.define subst s) := by
  induction subst generalizing φ with
  | nil => rfl
  | cons p rest ih =>
    rw [List.forall_mem_cons] at h
    have hstep := eval_substituteVarInFormula (x := ⟨p.1, guessSortOf p.2⟩)
      (Term.sort_eval (.define rest s) p.2 h.1) (guessSortOf_ne_bool p.2) φ
    exact (ih h.2).trans hstep

theorem ProcedureInterface.same_define
    (h : ∀ p ∈ subst, ¬ interface.isInterfaceScalar p.1) :
    interface.Same s (.define subst s) := by
  induction subst with
  | nil => exact .refl interface s
  | cons p rest ih =>
    rw [List.forall_mem_cons] at h
    exact (ih h.2).set h.1 _

/-- The sort by which a definition is substituted is the sort of its term. -/
theorem sort_eq_guessSortOf (h : Eliminable interface φ) (hφ : φ.Validated)
    (hseen : OperandsSeen interface φ) {p : String × Term}
    (hp : p ∈ resolvedDefinitions interface φ) : p.2.sort = .ok (guessSortOf p.2) := by
  have hdefined : p.1 ∈ definedLocals interface φ := by
    rw [← map_fst_resolvedDefinitions]
    exact List.mem_map_of_mem hp
  obtain ⟨t, v, -, hv⟩ := exists_definedAs_of_mem_definedLocals hdefined
  obtain ⟨q, hq, heq⟩ := hseen.exists_mem hv.operand hv.notInterface
  have hname : q.1 = p.1 := by rw [← hv.name, heq]
  have hnodup : ((resolvedDefinitions interface φ).map Prod.fst).Nodup :=
    pairwise_resolvedDefinitions.imp ne_of_lt
  obtain rfl : q = p := List.inj_on_of_nodup_map hnodup hq hp hname
  have hsort := (sortsAgree_resolved h hφ q hq).2 v hv.leaf hv.name
  rwa [heq] at hsort

/-- Where the formula holds, so do the definitions. -/
theorem definitionsHold_of_holds (h : Eliminable interface φ) (hs : φ.Holds s) :
    DefinitionsHold interface φ s := by
  intro p hp v hname hv
  obtain ⟨w, hw⟩ := exists_definedAs hp
  rw [hw.eq_of_leaf h hp hv hname]
  exact hw.value s hs

/-- What is stored in a memory that an operand reads. -/
def Formula.StoresRead (φ : Formula) (u : Term) : Prop :=
  ∃ memory index, .select memory index ∈ φ.operands ∧ u ∈ memory.operands

theorem Formula.StoresRead.substituteDefinitions {u : Term} (h : φ.StoresRead u) :
    substituteDefinitions subst φ = .fls ∨
      (substituteDefinitions subst φ).StoresRead (substituteDefinitionsInTerm subst u) := by
  obtain ⟨memory, index, hselect, hu⟩ := h
  induction subst generalizing φ u memory index with
  | nil => exact Or.inr ⟨memory, index, hselect, hu⟩
  | cons p rest ih =>
    rcases Formula.rebuild_mem_operands
      (m := .replaceVar ⟨p.1, guessSortOf p.2⟩ p.2) φ hselect with hfls | hmem
    · exact Or.inl (substituteDefinitions_cons_fls hfls)
    · exact ih _ _ hmem (Memory.rebuild_mem_operands memory hu)

theorem Formula.StoresRead.mem_leaves {v : Var} (h : φ.StoresRead (.var v)) :
    .termVar v ∈ φ.leaves := by
  obtain ⟨memory, index, hselect, hv⟩ := h
  have hreads : φ.Reads (fun _ ↦ True) (· ∈ φ.skippedLeaves) := ⟨fun _ _ ↦ trivial, fun _ hx ↦ hx⟩
  have hmemory := (Formula.Reads.operand φ hreads hselect).2
  simp only [Term.skippedLeaves, List.mem_append, or_imp, forall_and] at hmemory
  have hall : memory.Reads (· ∈ memory.leaves) (· ∈ memory.leaves) :=
    Memory.reads_of_forall_leaves fun _ hx ↦ hx
  have hleaf := (Memory.Reads.operand memory hall hv).1 (.termVar v) (by simp [Term.scannedLeaves])
  exact (Formula.mem_leaves φ).2 (Or.inr (hmemory.1 _ hleaf))

/-- **A local without a definition that is stored where an operand reads is captured**, whenever the
projection succeeds and does not collapse. -/
theorem not_projectedOnto_of_storesRead {v : Var} (hv : φ.StoresRead (.var v))
    (hlocal : ¬ interface.isInterfaceScalar v.name)
      (hundefined : v.name ∉ definedLocals interface φ)
    (hproject : projectToInterface interface φ = some projected) (hfls : projected ≠ .fls) :
    ¬ ProjectedOnto interface φ projected := by
  intro h
  obtain ⟨rfl, -⟩ := projectToInterface_eq_some.1 hproject
  have hstays : substituteDefinitionsInTerm (resolvedDefinitions interface φ)
    (.var v) = .var v := by
    refine substituteDefinitionsInTerm_var fun p hp heq ↦ hundefined ?_
    rw [← map_fst_resolvedDefinitions, heq]
    exact List.mem_map_of_mem hp
  have hleft := hv.substituteDefinitions.resolve_left hfls
  rw [hstays] at hleft
  exact hlocal (names_termVar.1 (h.names _ hleft.mem_leaves))

end States

/-! ### Two projections -/

section Examples

/-- The interface of a procedure `p` without arguments. -/
def interfaceOfP : ProcedureInterface := ⟨"p", []⟩

/-- What is read from the cell that the term was stored in. -/
def storedAndRead (t : Term) : Term := .select (.store (.var "M") (.int 0) t) (.int 0)

/-- The local `p$%1` is what was read where `p$%2` was stored. -/
def chainedLocals : Formula :=
  .and [.eq (.var (.int "p$%1")) (storedAndRead (.var (.int "p$%2"))),
    .eq (.var (.int "p$%2")) (.var (.int "x")), .eq (.var (.int "y")) (.var (.int "p$%1"))]

theorem collect_chainedLocals : collectLocalDefinitions interfaceOfP chainedLocals [] =
    [("p$%1", storedAndRead (.var (.int "p$%2"))), ("p$%2", .var (.int "x"))] := by
  decide

theorem eliminable_chainedLocals : Eliminable interfaceOfP chainedLocals where
  sort_unique u v hu hv _ _ := by
    have hint : ∀ x ∈ chainedLocals.leaves, ∀ w, x = .termVar w → w.sort = .int := by
      simp [chainedLocals, storedAndRead, Formula.leaves, Formula.leavesList, Term.leaves,
        Memory.leaves, Var.int]
    rw [hint _ hu u rfl, hint _ hv v rfl]
  compared _ x hx := by
    have hskipped : chainedLocals.skippedLeaves = [.region "M", .termVar (.int "p$%2")] := by
      decide
    rw [hskipped] at hx
    simp only [List.mem_cons, List.not_mem_nil, or_false] at hx
    rcases hx with rfl | rfl
    · exact Or.inl (names_region _)
    · exact Or.inr ⟨_, rfl, by decide⟩
  ordered _ m t ht v hv _ n hn := by
    rw [collect_chainedLocals] at ht
    simp only [List.mem_cons, List.not_mem_nil, or_false, Prod.mk.injEq] at ht
    rcases ht with ⟨rfl, rfl⟩ | ⟨rfl, rfl⟩
    · obtain rfl : v = .int "p$%2" := by
        simpa [storedAndRead, Term.skippedLeaves, Memory.leaves, Term.leaves] using hv
      -- No definition reads `p$%1`.
      rcases ReflTransGen.cases_tail hn with rfl | ⟨k, -, u, hu, huse⟩
      · decide
      · rw [collect_chainedLocals] at hu
        have hnone : ∀ q ∈ [("p$%1", storedAndRead (.var (.int "p$%2"))),
          ("p$%2", .var (.int "x"))],
            "p$%1" ∉ q.2.nonInterfaceScalars interfaceOfP := by decide
        exact absurd huse (hnone _ hu)
    · simp [Term.skippedLeaves] at hv

/-- The variable `y` is what was read where the local `p$%1` was stored. -/
def storedLocal : Formula := .eq (.var (.int "y")) (storedAndRead (.var (.int "p$%1")))

end Examples

end MayMust
