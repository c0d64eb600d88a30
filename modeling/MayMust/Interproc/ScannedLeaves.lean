import MayMust.Formula.WellSorted
import MayMust.Interproc.Projection

/-!
# What a projection looks at

The walk that looks for locals after a projection enters every formula and term, but not the memory
that a term reads. It thus splits the leaves of a formula into those it scans and those it skips
(`Formula.mem_leaves`), and what it reports are the locals among the scanned ones
(`Formula.nonInterfaceScalars_eq`).

The substitution that resolves chains of definitions makes the same difference: it keeps the skipped
leaves (`reads_applySubstToFormula`).
-/

namespace MayMust

/-! ### Scanned and skipped leaves -/

mutual

/-- The leaves that `walk_memory_collect_non_interface` comes to. -/
def Memory.scannedLeaves : Memory → List Leaf
  | .var name => [.region name]
  | .store memory index value =>
    memory.scannedLeaves ++ index.scannedLeaves ++ value.scannedLeaves
termination_by structural m => m

/-- The leaves that `walk_term_collect_non_interface` comes to. -/
def Term.scannedLeaves : Term → List Leaf
  | .var v => [.termVar v]
  | .int _ | .real _ => []
  | .boolToInt value => value.scannedLeaves
  | .select _ index => index.scannedLeaves
  | .add lhs rhs | .sub lhs rhs | .mul lhs rhs | .div lhs rhs | .rem lhs rhs =>
    lhs.scannedLeaves ++ rhs.scannedLeaves
  | .neg inner => inner.scannedLeaves
termination_by structural t => t

/-- The leaves that `walk_formula_collect_non_interface` comes to. -/
def Formula.scannedLeaves : Formula → List Leaf
  | .tru | .fls => []
  | .var v => [.boolVar v]
  | .not inner => inner.scannedLeaves
  | .and items | .or items => Formula.scannedLeavesList items
  | .implies lhs rhs => lhs.scannedLeaves ++ rhs.scannedLeaves
  | .eq lhs rhs | .lt lhs rhs | .le lhs rhs | .gt lhs rhs | .ge lhs rhs =>
    lhs.scannedLeaves ++ rhs.scannedLeaves
  | .memoryEq lhs rhs => lhs.scannedLeaves ++ rhs.scannedLeaves
termination_by structural φ => φ

/-- `Formula.scannedLeaves` on a list of formulas. -/
def Formula.scannedLeavesList : List Formula → List Leaf
  | [] => []
  | item :: rest => item.scannedLeaves ++ Formula.scannedLeavesList rest
termination_by structural items => items

end

mutual

/-- The leaves of a memory expression that stand in a memory which a term reads. -/
def Memory.skippedLeaves : Memory → List Leaf
  | .var _ => []
  | .store memory index value =>
    memory.skippedLeaves ++ index.skippedLeaves ++ value.skippedLeaves
termination_by structural m => m

/-- The leaves of a term that stand in a memory which it reads. -/
def Term.skippedLeaves : Term → List Leaf
  | .var _ | .int _ | .real _ => []
  | .boolToInt value => value.skippedLeaves
  | .select memory index => memory.leaves ++ index.skippedLeaves
  | .add lhs rhs | .sub lhs rhs | .mul lhs rhs | .div lhs rhs | .rem lhs rhs =>
    lhs.skippedLeaves ++ rhs.skippedLeaves
  | .neg inner => inner.skippedLeaves
termination_by structural t => t

/-- The leaves of a formula that stand in a memory which a term reads. -/
def Formula.skippedLeaves : Formula → List Leaf
  | .tru | .fls | .var _ => []
  | .not inner => inner.skippedLeaves
  | .and items | .or items => Formula.skippedLeavesList items
  | .implies lhs rhs => lhs.skippedLeaves ++ rhs.skippedLeaves
  | .eq lhs rhs | .lt lhs rhs | .le lhs rhs | .gt lhs rhs | .ge lhs rhs =>
    lhs.skippedLeaves ++ rhs.skippedLeaves
  | .memoryEq lhs rhs => lhs.skippedLeaves ++ rhs.skippedLeaves
termination_by structural φ => φ

/-- `Formula.skippedLeaves` on a list of formulas. -/
def Formula.skippedLeavesList : List Formula → List Leaf
  | [] => []
  | item :: rest => item.skippedLeaves ++ Formula.skippedLeavesList rest
termination_by structural items => items

end

theorem Formula.mem_scannedLeavesList {items : List Formula} {x : Leaf} :
    x ∈ Formula.scannedLeavesList items ↔ ∃ φ ∈ items, x ∈ φ.scannedLeaves := by
  induction items with
  | nil => simp [Formula.scannedLeavesList]
  | cons item rest ih => simp [Formula.scannedLeavesList, ih]

theorem Formula.mem_skippedLeavesList {items : List Formula} {x : Leaf} :
    x ∈ Formula.skippedLeavesList items ↔ ∃ φ ∈ items, x ∈ φ.skippedLeaves := by
  induction items with
  | nil => simp [Formula.skippedLeavesList]
  | cons item rest ih => simp [Formula.skippedLeavesList, ih]

section Split

variable {x : Leaf}

mutual

theorem Memory.mem_leaves : ∀ m : Memory,
    x ∈ m.leaves ↔ x ∈ m.scannedLeaves ∨ x ∈ m.skippedLeaves
  | .var _ => by simp [Memory.leaves, Memory.scannedLeaves, Memory.skippedLeaves]
  | .store memory index value => by
    simp only [Memory.leaves, Memory.scannedLeaves, Memory.skippedLeaves, List.mem_append,
      Memory.mem_leaves memory, Term.mem_leaves index, Term.mem_leaves value]
    tauto

theorem Term.mem_leaves : ∀ t : Term,
    x ∈ t.leaves ↔ x ∈ t.scannedLeaves ∨ x ∈ t.skippedLeaves
  | .var _ | .int _ | .real _ => by simp [Term.leaves, Term.scannedLeaves, Term.skippedLeaves]
  | .boolToInt value => by
    simp only [Term.leaves, Term.scannedLeaves, Term.skippedLeaves]
    exact Formula.mem_leaves value
  | .select _ index => by
    simp only [Term.leaves, Term.scannedLeaves, Term.skippedLeaves, List.mem_append,
      Term.mem_leaves index]
    tauto
  | .add lhs rhs | .sub lhs rhs | .mul lhs rhs | .div lhs rhs | .rem lhs rhs => by
    simp only [Term.leaves, Term.scannedLeaves, Term.skippedLeaves, List.mem_append,
      Term.mem_leaves lhs, Term.mem_leaves rhs]
    tauto
  | .neg inner => by
    simp only [Term.leaves, Term.scannedLeaves, Term.skippedLeaves]
    exact Term.mem_leaves inner

/-- The walk splits the leaves of a formula. -/
theorem Formula.mem_leaves : ∀ φ : Formula,
    x ∈ φ.leaves ↔ x ∈ φ.scannedLeaves ∨ x ∈ φ.skippedLeaves
  | .tru | .fls | .var _ => by
    simp [Formula.leaves, Formula.scannedLeaves, Formula.skippedLeaves]
  | .not inner => by
    simp only [Formula.leaves, Formula.scannedLeaves, Formula.skippedLeaves]
    exact Formula.mem_leaves inner
  | .and items | .or items => by
    simp only [Formula.leaves, Formula.scannedLeaves, Formula.skippedLeaves]
    exact Formula.mem_leavesList_iff items
  | .implies lhs rhs => by
    simp only [Formula.leaves, Formula.scannedLeaves, Formula.skippedLeaves, List.mem_append,
      Formula.mem_leaves lhs, Formula.mem_leaves rhs]
    tauto
  | .eq lhs rhs | .lt lhs rhs | .le lhs rhs | .gt lhs rhs | .ge lhs rhs => by
    simp only [Formula.leaves, Formula.scannedLeaves, Formula.skippedLeaves, List.mem_append,
      Term.mem_leaves lhs, Term.mem_leaves rhs]
    tauto
  | .memoryEq lhs rhs => by
    simp only [Formula.leaves, Formula.scannedLeaves, Formula.skippedLeaves, List.mem_append,
      Memory.mem_leaves lhs, Memory.mem_leaves rhs]
    tauto

theorem Formula.mem_leavesList_iff : ∀ items : List Formula,
    x ∈ Formula.leavesList items ↔
      x ∈ Formula.scannedLeavesList items ∨ x ∈ Formula.skippedLeavesList items
  | [] => by
    simp [Formula.leavesList, Formula.scannedLeavesList, Formula.skippedLeavesList]
  | item :: rest => by
    simp only [Formula.leavesList, Formula.scannedLeavesList, Formula.skippedLeavesList,
      List.mem_append, Formula.mem_leaves item, Formula.mem_leavesList_iff rest]
    tauto

end

end Split

/-! ### What the walk reports -/

/-- The name of a leaf that is a local of the procedure. -/
def Leaf.localName (interface : ProcedureInterface) : Leaf → Option String
  | .boolVar v | .termVar v => if interface.isInterfaceScalar v.name then none else some v.name
  | .region _ => none

section Report

variable (interface : ProcedureInterface)

mutual

theorem Memory.nonInterfaceScalars_eq : ∀ m : Memory,
    m.nonInterfaceScalars interface = m.scannedLeaves.filterMap (Leaf.localName interface)
  | .var _ => by simp [Memory.nonInterfaceScalars, Memory.scannedLeaves, Leaf.localName]
  | .store memory index value => by
    rw [Memory.nonInterfaceScalars, Memory.scannedLeaves, List.filterMap_append,
      List.filterMap_append, Memory.nonInterfaceScalars_eq memory,
      Term.nonInterfaceScalars_eq index, Term.nonInterfaceScalars_eq value]

theorem Term.nonInterfaceScalars_eq : ∀ t : Term,
    t.nonInterfaceScalars interface = t.scannedLeaves.filterMap (Leaf.localName interface)
  | .var v => by
    rw [Term.nonInterfaceScalars, Term.scannedLeaves]
    by_cases hv : interface.isInterfaceScalar v.name <;> simp [Leaf.localName, hv]
  | .int _ | .real _ => by simp [Term.nonInterfaceScalars, Term.scannedLeaves]
  | .boolToInt value => by
    rw [Term.nonInterfaceScalars, Term.scannedLeaves]
    exact Formula.nonInterfaceScalars_eq value
  | .select _ index => by
    rw [Term.nonInterfaceScalars, Term.scannedLeaves]
    exact Term.nonInterfaceScalars_eq index
  | .add lhs rhs | .sub lhs rhs | .mul lhs rhs | .div lhs rhs | .rem lhs rhs => by
    rw [Term.nonInterfaceScalars, Term.scannedLeaves, List.filterMap_append,
      Term.nonInterfaceScalars_eq lhs, Term.nonInterfaceScalars_eq rhs]
  | .neg inner => by
    rw [Term.nonInterfaceScalars, Term.scannedLeaves]
    exact Term.nonInterfaceScalars_eq inner

/-- The walk reports the locals among the leaves it scans. -/
theorem Formula.nonInterfaceScalars_eq : ∀ φ : Formula,
    φ.nonInterfaceScalars interface = φ.scannedLeaves.filterMap (Leaf.localName interface)
  | .tru | .fls => by simp [Formula.nonInterfaceScalars, Formula.scannedLeaves]
  | .var v => by
    rw [Formula.nonInterfaceScalars, Formula.scannedLeaves]
    by_cases hv : interface.isInterfaceScalar v.name <;> simp [Leaf.localName, hv]
  | .not inner => by
    rw [Formula.nonInterfaceScalars, Formula.scannedLeaves]
    exact Formula.nonInterfaceScalars_eq inner
  | .and items | .or items => by
    rw [Formula.nonInterfaceScalars, Formula.scannedLeaves]
    exact Formula.nonInterfaceScalarsAny_eq items
  | .implies lhs rhs => by
    rw [Formula.nonInterfaceScalars, Formula.scannedLeaves, List.filterMap_append,
      Formula.nonInterfaceScalars_eq lhs, Formula.nonInterfaceScalars_eq rhs]
  | .eq lhs rhs | .lt lhs rhs | .le lhs rhs | .gt lhs rhs | .ge lhs rhs => by
    rw [Formula.nonInterfaceScalars, Formula.scannedLeaves, List.filterMap_append,
      Term.nonInterfaceScalars_eq lhs, Term.nonInterfaceScalars_eq rhs]
  | .memoryEq lhs rhs => by
    rw [Formula.nonInterfaceScalars, Formula.scannedLeaves, List.filterMap_append,
      Memory.nonInterfaceScalars_eq lhs, Memory.nonInterfaceScalars_eq rhs]

theorem Formula.nonInterfaceScalarsAny_eq : ∀ items : List Formula,
    Formula.nonInterfaceScalarsAny interface items =
      (Formula.scannedLeavesList items).filterMap (Leaf.localName interface)
  | [] => by simp [Formula.nonInterfaceScalarsAny, Formula.scannedLeavesList]
  | item :: rest => by
    rw [Formula.nonInterfaceScalarsAny, Formula.scannedLeavesList, List.filterMap_append,
      Formula.nonInterfaceScalars_eq item, Formula.nonInterfaceScalarsAny_eq rest]

end

end Report

/-! ### Substitution and the split -/

section Reads

variable (V H : Leaf → Prop)

/-- Of the leaves of the memory expression, the scanned ones and the skipped ones each have a
property. -/
def Memory.Reads (m : Memory) : Prop := (∀ x ∈ m.scannedLeaves, V x) ∧ ∀ x ∈ m.skippedLeaves, H x

/-- `Memory.Reads` for terms. -/
def Term.Reads (t : Term) : Prop := (∀ x ∈ t.scannedLeaves, V x) ∧ ∀ x ∈ t.skippedLeaves, H x

/-- `Memory.Reads` for formulas. -/
def Formula.Reads (φ : Formula) : Prop :=
  (∀ x ∈ φ.scannedLeaves, V x) ∧ ∀ x ∈ φ.skippedLeaves, H x

end Reads

section Substitution

variable {V H V' H' : Leaf → Prop}

theorem hereditary_reads (V H : Leaf → Prop) : Hereditary (Formula.Reads V H) where
  tru := by simp [Formula.Reads, Formula.scannedLeaves, Formula.skippedLeaves]
  fls := by simp [Formula.Reads, Formula.scannedLeaves, Formula.skippedLeaves]
  not_iff φ := by simp only [Formula.Reads, Formula.scannedLeaves, Formula.skippedLeaves]
  and_iff items := by
    simp only [Formula.Reads, Formula.scannedLeaves, Formula.skippedLeaves,
      Formula.mem_scannedLeavesList, Formula.mem_skippedLeavesList]
    grind
  or_iff items := by
    simp only [Formula.Reads, Formula.scannedLeaves, Formula.skippedLeaves,
      Formula.mem_scannedLeavesList, Formula.mem_skippedLeavesList]
    grind
  implies_iff φ ψ := by
    simp only [Formula.Reads, Formula.scannedLeaves, Formula.skippedLeaves, List.mem_append,
      or_imp, forall_and]
    exact and_and_and_comm

section Apply

variable {subst : TermSubstitution}

/-- The definitions, and leaving a leaf as it is, take leaves with the old properties to leaves
with the new ones. -/
structure TermSubstitution.Carries (subst : TermSubstitution) (V H V' H' : Leaf → Prop) :
    Prop where
  defined : ∀ v, V (.termVar v) → ∀ t, subst.lookup v.name = some t → t.Reads V' H'
  scanned : ∀ x, V x → V' x
  skipped : ∀ x, H x → H' x

mutual

theorem reads_applySubstToTerm (hs : subst.Carries V H V' H') : ∀ t : Term, t.Reads V H →
    (applySubstToTerm subst t).Reads V' H'
  | .var v, h => by
    have hv : V (.termVar v) := h.1 _ (by simp [Term.scannedLeaves])
    rw [applySubstToTerm]
    cases hlookup : subst.lookup v.name with
    | none => exact ⟨fun x hx ↦ hs.scanned x (h.1 x hx), fun x hx ↦ hs.skipped x (h.2 x hx)⟩
    | some t => exact hs.defined v hv t hlookup
  | .int _, _ | .real _, _ => by
    simp [applySubstToTerm, Term.Reads, Term.scannedLeaves, Term.skippedLeaves]
  | .boolToInt value, h => by
    simp only [Term.Reads, Term.scannedLeaves, Term.skippedLeaves] at h
    exact reads_applySubstToFormula hs value h
  | .select memory index, h => by
    simp only [Term.Reads, Term.scannedLeaves, Term.skippedLeaves, List.mem_append, or_imp,
      forall_and] at h
    have hindex := reads_applySubstToTerm hs index ⟨h.1, h.2.2⟩
    simp only [applySubstToTerm, Term.Reads, Term.scannedLeaves, Term.skippedLeaves,
      List.mem_append, or_imp, forall_and]
    exact ⟨hindex.1, fun x hx ↦ hs.skipped x (h.2.1 x hx), hindex.2⟩
  | .add lhs rhs, h | .sub lhs rhs, h | .mul lhs rhs, h | .div lhs rhs, h | .rem lhs rhs, h => by
    simp only [Term.Reads, Term.scannedLeaves, Term.skippedLeaves, List.mem_append, or_imp,
      forall_and] at h
    have hlhs := reads_applySubstToTerm hs lhs ⟨h.1.1, h.2.1⟩
    have hrhs := reads_applySubstToTerm hs rhs ⟨h.1.2, h.2.2⟩
    simp only [applySubstToTerm, Term.Reads, Term.scannedLeaves, Term.skippedLeaves,
      List.mem_append, or_imp, forall_and]
    exact ⟨⟨hlhs.1, hrhs.1⟩, hlhs.2, hrhs.2⟩
  | .neg inner, h => by
    simp only [Term.Reads, Term.scannedLeaves, Term.skippedLeaves] at h
    exact reads_applySubstToTerm hs inner h

/-- The leaves of a formula in which a substitution was carried out outside of memory. -/
theorem reads_applySubstToFormula (hs : subst.Carries V H V' H') : ∀ φ : Formula, φ.Reads V H →
    (applySubstToFormula subst φ).Reads V' H'
  | .tru, _ => (hereditary_reads V' H').tru
  | .fls, _ => (hereditary_reads V' H').fls
  | .var _, h | .memoryEq _ _, h => by
    rw [applySubstToFormula]
    exact ⟨fun x hx ↦ hs.scanned x (h.1 x hx), fun x hx ↦ hs.skipped x (h.2 x hx)⟩
  | .not inner, h => ((hereditary_reads V' H').not_iff _).2
      (reads_applySubstToFormula hs inner (((hereditary_reads V H).not_iff inner).1 h))
  | .and items, h => by
    rw [applySubstToFormula]
    refine (hereditary_reads V' H').andMany ?_
    exact reads_applySubstToFormulas hs items (((hereditary_reads V H).and_iff items).1 h)
  | .or items, h => by
    rw [applySubstToFormula]
    refine (hereditary_reads V' H').orMany ?_
    exact reads_applySubstToFormulas hs items (((hereditary_reads V H).or_iff items).1 h)
  | .implies lhs rhs, h => by
    obtain ⟨hlhs, hrhs⟩ := ((hereditary_reads V H).implies_iff lhs rhs).1 h
    exact (hereditary_reads V' H').mkImplies (reads_applySubstToFormula hs lhs hlhs)
      (reads_applySubstToFormula hs rhs hrhs)
  | .eq lhs rhs, h | .lt lhs rhs, h | .le lhs rhs, h | .gt lhs rhs, h | .ge lhs rhs, h => by
    simp only [Formula.Reads, Formula.scannedLeaves, Formula.skippedLeaves, List.mem_append,
      or_imp, forall_and] at h
    have hlhs := reads_applySubstToTerm hs lhs ⟨h.1.1, h.2.1⟩
    have hrhs := reads_applySubstToTerm hs rhs ⟨h.1.2, h.2.2⟩
    simp only [applySubstToFormula, Formula.Reads, Formula.scannedLeaves, Formula.skippedLeaves,
      List.mem_append, or_imp, forall_and]
    exact ⟨⟨hlhs.1, hrhs.1⟩, hlhs.2, hrhs.2⟩

theorem reads_applySubstToFormulas (hs : subst.Carries V H V' H') : ∀ items : List Formula,
    (∀ φ ∈ items, φ.Reads V H) →
    ∀ φ ∈ applySubstToFormulas subst items, φ.Reads V' H'
  | [], _ => by simp [applySubstToFormulas]
  | item :: rest, h => by
    rw [List.forall_mem_cons] at h
    rw [applySubstToFormulas, List.forall_mem_cons]
    exact ⟨reads_applySubstToFormula hs item h.1, reads_applySubstToFormulas hs rest h.2⟩

end

end Apply

end Substitution

end MayMust
