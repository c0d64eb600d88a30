import MayMust.Interproc.ScannedLeaves

/-!
# Blocks and operands

The substitution at the end of a projection enters everything, and simplifies on the way. What a
later substitution simplifies away depends on the whole formula, so its result is described in terms
of blocks, the terms that earlier substitutions put in: a formula that is built from blocks is
rebuilt from what becomes of the blocks (`Formula.builtFrom_rebuild`), and reads what they read
(`Formula.reads_of_builtFrom`).

The terms that the comparisons among the conjuncts of a formula compute with are its operands.
No simplification touches them, unless the whole conjunction collapses
(`Formula.rebuild_mem_operands`).
-/

namespace MayMust

/-! ### Blocks -/

mutual

/-- The memory expression is built from terms with the first property, where it is not in a memory
that a term reads, and from terms with the second, where it is. -/
def Memory.BuiltFrom : Memory → (Term → Prop) → (Term → Prop) → Prop
  | .var _, _, _ => True
  | .store memory index value, T, H =>
    memory.BuiltFrom T H ∧ index.BuiltFrom T H ∧ value.BuiltFrom T H
termination_by structural m => m

/-- `Memory.BuiltFrom` for terms. -/
def Term.BuiltFrom : Term → (Term → Prop) → (Term → Prop) → Prop
  | .var v, T, _ => T (.var v)
  | .int _, _, _ | .real _, _, _ => True
  | .boolToInt value, T, H => T (.boolToInt value) ∨ value.BuiltFrom T H
  | .select memory index, T, H =>
    T (.select memory index) ∨ memory.BuiltFrom H H ∧ index.BuiltFrom T H
  | .add lhs rhs, T, H => T (.add lhs rhs) ∨ lhs.BuiltFrom T H ∧ rhs.BuiltFrom T H
  | .sub lhs rhs, T, H => T (.sub lhs rhs) ∨ lhs.BuiltFrom T H ∧ rhs.BuiltFrom T H
  | .mul lhs rhs, T, H => T (.mul lhs rhs) ∨ lhs.BuiltFrom T H ∧ rhs.BuiltFrom T H
  | .div lhs rhs, T, H => T (.div lhs rhs) ∨ lhs.BuiltFrom T H ∧ rhs.BuiltFrom T H
  | .rem lhs rhs, T, H => T (.rem lhs rhs) ∨ lhs.BuiltFrom T H ∧ rhs.BuiltFrom T H
  | .neg inner, T, H => T (.neg inner) ∨ inner.BuiltFrom T H
termination_by structural t => t

/-- `Memory.BuiltFrom` for formulas. A Boolean variable counts as the term that coerces it. -/
def Formula.BuiltFrom : Formula → (Term → Prop) → (Term → Prop) → Prop
  | .tru, _, _ | .fls, _, _ => True
  | .var v, T, _ => T (.boolToInt (.var v))
  | .not inner, T, H => inner.BuiltFrom T H
  | .and items, T, H | .or items, T, H => Formula.BuiltFromList items T H
  | .implies lhs rhs, T, H => lhs.BuiltFrom T H ∧ rhs.BuiltFrom T H
  | .eq lhs rhs, T, H | .lt lhs rhs, T, H | .le lhs rhs, T, H | .gt lhs rhs, T, H
  | .ge lhs rhs, T, H => lhs.BuiltFrom T H ∧ rhs.BuiltFrom T H
  | .memoryEq lhs rhs, T, H => lhs.BuiltFrom T H ∧ rhs.BuiltFrom T H
termination_by structural φ => φ

/-- `Formula.BuiltFrom` for every formula of a list. -/
def Formula.BuiltFromList : List Formula → (Term → Prop) → (Term → Prop) → Prop
  | [], _, _ => True
  | item :: rest, T, H => item.BuiltFrom T H ∧ Formula.BuiltFromList rest T H
termination_by structural items => items

end

section Blocks

variable {T H T' H' : Term → Prop}

theorem Formula.builtFromList_iff {items : List Formula} :
    Formula.BuiltFromList items T H ↔ ∀ φ ∈ items, φ.BuiltFrom T H := by
  induction items with
  | nil => simp [Formula.BuiltFromList]
  | cons item rest ih => rw [Formula.BuiltFromList, ih, List.forall_mem_cons]

theorem hereditary_builtFrom (T H : Term → Prop) :
    Hereditary fun φ : Formula ↦ φ.BuiltFrom T H where
  tru := by simp [Formula.BuiltFrom]
  fls := by simp [Formula.BuiltFrom]
  not_iff φ := by simp only [Formula.BuiltFrom]
  and_iff items := Formula.builtFromList_iff
  or_iff items := Formula.builtFromList_iff
  implies_iff φ ψ := by simp only [Formula.BuiltFrom]

/-- A block is built from itself. -/
theorem Term.builtFrom_self {t : Term} (h : T t) : t.BuiltFrom T H := by
  cases t with
  | var v => exact h
  | int | real => trivial
  | _ => exact Or.inl h

/-- The leaf map keeps everything but term variables. -/
structure LeafMap.OnlyTerms (m : LeafMap) : Prop where
  boolVar : ∀ v, m.boolVar v = .var v
  region : ∀ name, m.region name = .var name

/-- The leaf map takes blocks to terms that are built from blocks. -/
def LeafMap.Builds (m : LeafMap) (T T' H' : Term → Prop) : Prop :=
  ∀ t, T t → (t.rebuild m).BuiltFrom T' H'

section Rebuild

variable {m : LeafMap}

mutual

theorem Memory.builtFrom_rebuild (hm : m.OnlyTerms) : ∀ (mem : Memory) {T H T' H' : Term → Prop},
    m.Builds T T' H' → m.Builds H H' H' → mem.BuiltFrom T H → (mem.rebuild m).BuiltFrom T' H'
  | .var name, _, _, _, _, _, _, _ => by
    rw [Memory.rebuild, hm.region]
    trivial
  | .store inner index value, _, _, _, _, hT, hH, h =>
    ⟨Memory.builtFrom_rebuild hm inner hT hH h.1, Term.builtFrom_rebuild hm index hT hH h.2.1,
      Term.builtFrom_rebuild hm value hT hH h.2.2⟩

theorem Term.builtFrom_rebuild (hm : m.OnlyTerms) : ∀ (t : Term) {T H T' H' : Term → Prop},
    m.Builds T T' H' → m.Builds H H' H' → t.BuiltFrom T H → (t.rebuild m).BuiltFrom T' H'
  | .var v, _, _, _, _, hT, _, h => hT _ h
  | .int _, _, _, _, _, _, _, _ | .real _, _, _, _, _, _, _, _ => trivial
  | .boolToInt value, _, _, _, _, hT, hH, h => by
    rcases h with h | h
    · exact hT _ h
    · exact Or.inr (Formula.builtFrom_rebuild hm value hT hH h)
  | .select memory index, _, _, _, _, hT, hH, h => by
    rcases h with h | h
    · exact hT _ h
    · exact Or.inr ⟨Memory.builtFrom_rebuild hm memory hH hH h.1,
        Term.builtFrom_rebuild hm index hT hH h.2⟩
  | .add lhs rhs, _, _, _, _, hT, hH, h | .sub lhs rhs, _, _, _, _, hT, hH, h
  | .mul lhs rhs, _, _, _, _, hT, hH, h | .div lhs rhs, _, _, _, _, hT, hH, h
  | .rem lhs rhs, _, _, _, _, hT, hH, h => by
    rcases h with h | h
    · exact hT _ h
    · exact Or.inr ⟨Term.builtFrom_rebuild hm lhs hT hH h.1,
        Term.builtFrom_rebuild hm rhs hT hH h.2⟩
  | .neg inner, _, _, _, _, hT, hH, h => by
    rcases h with h | h
    · exact hT _ h
    · exact Or.inr (Term.builtFrom_rebuild hm inner hT hH h)

/-- Simplification does not look into blocks. -/
theorem Formula.builtFrom_rebuild (hm : m.OnlyTerms) :
    ∀ (φ : Formula) {T H T' H' : Term → Prop}, m.Builds T T' H' → m.Builds H H' H' →
      φ.BuiltFrom T H → (φ.rebuild m).BuiltFrom T' H'
  | .tru, _, _, _, _, _, _, _ | .fls, _, _, _, _, _, _, _ => trivial
  | .var v, _, _, _, _, hT, _, h => by
    have hv := hT _ h
    rw [Term.rebuild, Formula.rebuild, hm.boolVar] at hv
    rw [Formula.rebuild, hm.boolVar]
    exact hv.elim id id
  | .not inner, _, _, _, _, hT, hH, h => Formula.builtFrom_rebuild hm inner hT hH h
  | .and items, _, _, T', H', hT, hH, h => by
    rw [Formula.rebuild, Formula.rebuildList_eq_map]
    refine (hereditary_builtFrom T' H').andMany (List.forall_mem_map.2 ?_)
    exact Formula.builtFrom_rebuildList hm items hT hH h
  | .or items, _, _, T', H', hT, hH, h => by
    rw [Formula.rebuild, Formula.rebuildList_eq_map]
    refine (hereditary_builtFrom T' H').orMany (List.forall_mem_map.2 ?_)
    exact Formula.builtFrom_rebuildList hm items hT hH h
  | .implies lhs rhs, _, _, T', H', hT, hH, h =>
    (hereditary_builtFrom T' H').mkImplies (Formula.builtFrom_rebuild hm lhs hT hH h.1)
      (Formula.builtFrom_rebuild hm rhs hT hH h.2)
  | .eq lhs rhs, _, _, _, _, hT, hH, h | .lt lhs rhs, _, _, _, _, hT, hH, h
  | .le lhs rhs, _, _, _, _, hT, hH, h | .gt lhs rhs, _, _, _, _, hT, hH, h
  | .ge lhs rhs, _, _, _, _, hT, hH, h =>
    ⟨Term.builtFrom_rebuild hm lhs hT hH h.1, Term.builtFrom_rebuild hm rhs hT hH h.2⟩
  | .memoryEq lhs rhs, _, _, _, _, hT, hH, h =>
    ⟨Memory.builtFrom_rebuild hm lhs hT hH h.1, Memory.builtFrom_rebuild hm rhs hT hH h.2⟩

theorem Formula.builtFrom_rebuildList (hm : m.OnlyTerms) :
    ∀ (items : List Formula) {T H T' H' : Term → Prop}, m.Builds T T' H' → m.Builds H H' H' →
      Formula.BuiltFromList items T H → ∀ φ ∈ items, (φ.rebuild m).BuiltFrom T' H'
  | [], _, _, _, _, _, _, _ => by simp
  | item :: rest, _, _, _, _, hT, hH, h => by
    rw [List.forall_mem_cons]
    exact ⟨Formula.builtFrom_rebuild hm item hT hH h.1,
      Formula.builtFrom_rebuildList hm rest hT hH h.2⟩

end

end Rebuild

section Leaves

variable {V N : Leaf → Prop}

theorem Memory.reads_of_forall_leaves {mem : Memory} (h : ∀ x ∈ mem.leaves, N x) :
    mem.Reads N N :=
  ⟨fun x hx ↦ h x ((Memory.mem_leaves mem).2 (Or.inl hx)),
    fun x hx ↦ h x ((Memory.mem_leaves mem).2 (Or.inr hx))⟩

theorem Memory.Reads.forall_leaves {mem : Memory} (h : mem.Reads N N) : ∀ x ∈ mem.leaves, N x :=
  fun x hx ↦ ((Memory.mem_leaves mem).1 hx).elim (h.1 x) (h.2 x)

/-- What is known of the leaves of the two kinds of blocks. -/
structure BlocksRead (T H : Term → Prop) (V N : Leaf → Prop) : Prop where
  scanned : ∀ t, T t → t.Reads V N
  skipped : ∀ t, H t → t.Reads N N
  region : ∀ name, V (.region name) ∧ N (.region name)

/-- Inside a memory that a term reads, all blocks are of the second kind. -/
theorem BlocksRead.inside (h : BlocksRead T H V N) : BlocksRead H H N N :=
  ⟨h.skipped, h.skipped, fun name ↦ ⟨(h.region name).2, (h.region name).2⟩⟩

mutual

theorem Memory.reads_of_builtFrom : ∀ (mem : Memory) {T H : Term → Prop} {V N : Leaf → Prop},
    BlocksRead T H V N → mem.BuiltFrom T H → mem.Reads V N
  | .var name, _, _, _, _, hread, _ => by
    simp [Memory.Reads, Memory.scannedLeaves, Memory.skippedLeaves, hread.region name]
  | .store memory index value, _, _, _, _, hread, h => by
    have hmemory := Memory.reads_of_builtFrom memory hread h.1
    have hindex := Term.reads_of_builtFrom index hread h.2.1
    have hvalue := Term.reads_of_builtFrom value hread h.2.2
    simp only [Memory.Reads, Memory.scannedLeaves, Memory.skippedLeaves, List.mem_append, or_imp,
      forall_and]
    exact ⟨⟨⟨hmemory.1, hindex.1⟩, hvalue.1⟩, ⟨hmemory.2, hindex.2⟩, hvalue.2⟩

theorem Term.reads_of_builtFrom : ∀ (t : Term) {T H : Term → Prop} {V N : Leaf → Prop},
    BlocksRead T H V N → t.BuiltFrom T H → t.Reads V N
  | .var _, _, _, _, _, hread, h => hread.scanned _ h
  | .int _, _, _, _, _, _, _ | .real _, _, _, _, _, _, _ => by
    simp [Term.Reads, Term.scannedLeaves, Term.skippedLeaves]
  | .boolToInt value, _, _, _, _, hread, h => by
    rcases h with h | h
    · exact hread.scanned _ h
    · exact Formula.reads_of_builtFrom value hread h
  | .select memory index, _, _, _, _, hread, h => by
    rcases h with h | h
    · exact hread.scanned _ h
    · have hmemory := (Memory.reads_of_builtFrom memory hread.inside h.1).forall_leaves
      have hindex := Term.reads_of_builtFrom index hread h.2
      simp only [Term.Reads, Term.scannedLeaves, Term.skippedLeaves, List.mem_append, or_imp,
        forall_and]
      exact ⟨hindex.1, hmemory, hindex.2⟩
  | .add lhs rhs, _, _, _, _, hread, h | .sub lhs rhs, _, _, _, _, hread, h
  | .mul lhs rhs, _, _, _, _, hread, h | .div lhs rhs, _, _, _, _, hread, h
  | .rem lhs rhs, _, _, _, _, hread, h => by
    rcases h with h | h
    · exact hread.scanned _ h
    · have hlhs := Term.reads_of_builtFrom lhs hread h.1
      have hrhs := Term.reads_of_builtFrom rhs hread h.2
      simp only [Term.Reads, Term.scannedLeaves, Term.skippedLeaves, List.mem_append, or_imp,
        forall_and]
      exact ⟨⟨hlhs.1, hrhs.1⟩, hlhs.2, hrhs.2⟩
  | .neg inner, _, _, _, _, hread, h => by
    rcases h with h | h
    · exact hread.scanned _ h
    · exact Term.reads_of_builtFrom inner hread h

/-- A formula reads what its blocks read. -/
theorem Formula.reads_of_builtFrom : ∀ (φ : Formula) {T H : Term → Prop} {V N : Leaf → Prop},
    BlocksRead T H V N → φ.BuiltFrom T H → φ.Reads V N
  | .tru, _, _, V, N, _, _ => (hereditary_reads V N).tru
  | .fls, _, _, V, N, _, _ => (hereditary_reads V N).fls
  | .var _, _, _, _, _, hread, h => hread.scanned _ h
  | .not inner, _, _, V, N, hread, h =>
    ((hereditary_reads V N).not_iff inner).2 (Formula.reads_of_builtFrom inner hread h)
  | .and items, _, _, V, N, hread, h =>
    ((hereditary_reads V N).and_iff items).2 (Formula.reads_of_builtFromList items hread h)
  | .or items, _, _, V, N, hread, h =>
    ((hereditary_reads V N).or_iff items).2 (Formula.reads_of_builtFromList items hread h)
  | .implies lhs rhs, _, _, V, N, hread, h =>
    ((hereditary_reads V N).implies_iff lhs rhs).2
      ⟨Formula.reads_of_builtFrom lhs hread h.1, Formula.reads_of_builtFrom rhs hread h.2⟩
  | .eq lhs rhs, _, _, _, _, hread, h | .lt lhs rhs, _, _, _, _, hread, h
  | .le lhs rhs, _, _, _, _, hread, h | .gt lhs rhs, _, _, _, _, hread, h
  | .ge lhs rhs, _, _, _, _, hread, h => by
    have hlhs := Term.reads_of_builtFrom lhs hread h.1
    have hrhs := Term.reads_of_builtFrom rhs hread h.2
    simp only [Formula.Reads, Formula.scannedLeaves, Formula.skippedLeaves, List.mem_append,
      or_imp, forall_and]
    exact ⟨⟨hlhs.1, hrhs.1⟩, hlhs.2, hrhs.2⟩
  | .memoryEq lhs rhs, _, _, _, _, hread, h => by
    have hlhs := Memory.reads_of_builtFrom lhs hread h.1
    have hrhs := Memory.reads_of_builtFrom rhs hread h.2
    simp only [Formula.Reads, Formula.scannedLeaves, Formula.skippedLeaves, List.mem_append,
      or_imp, forall_and]
    exact ⟨⟨hlhs.1, hrhs.1⟩, hlhs.2, hrhs.2⟩

theorem Formula.reads_of_builtFromList : ∀ (items : List Formula) {T H : Term → Prop}
    {V N : Leaf → Prop}, BlocksRead T H V N → Formula.BuiltFromList items T H →
      ∀ φ ∈ items, φ.Reads V N
  | [], _, _, _, _, _, _ => by simp
  | item :: rest, _, _, _, _, hread, h => by
    rw [List.forall_mem_cons]
    exact ⟨Formula.reads_of_builtFrom item hread h.1,
      Formula.reads_of_builtFromList rest hread h.2⟩

end

/-- A variable is a block. -/
def Leaf.IsBlock (T : Term → Prop) : Leaf → Prop
  | .boolVar v => T (.boolToInt (.var v))
  | .termVar v => T (.var v)
  | .region _ => True

mutual

theorem Memory.builtFrom_of_reads : ∀ (mem : Memory) {V N : Leaf → Prop} {T H : Term → Prop},
    (∀ x, V x → x.IsBlock T) → (∀ x, N x → x.IsBlock H) → mem.Reads V N → mem.BuiltFrom T H
  | .var _, _, _, _, _, _, _, _ => trivial
  | .store memory index value, _, _, _, _, hT, hH, h => by
    simp only [Memory.Reads, Memory.scannedLeaves, Memory.skippedLeaves, List.mem_append, or_imp,
      forall_and] at h
    exact ⟨Memory.builtFrom_of_reads memory hT hH ⟨h.1.1.1, h.2.1.1⟩,
      Term.builtFrom_of_reads index hT hH ⟨h.1.1.2, h.2.1.2⟩,
      Term.builtFrom_of_reads value hT hH ⟨h.1.2, h.2.2⟩⟩

theorem Term.builtFrom_of_reads : ∀ (t : Term) {V N : Leaf → Prop} {T H : Term → Prop},
    (∀ x, V x → x.IsBlock T) → (∀ x, N x → x.IsBlock H) → t.Reads V N → t.BuiltFrom T H
  | .var v, _, _, _, _, hT, _, h => hT _ (h.1 (.termVar v) (by simp [Term.scannedLeaves]))
  | .int _, _, _, _, _, _, _, _ | .real _, _, _, _, _, _, _, _ => trivial
  | .boolToInt value, _, _, _, _, hT, hH, h => by
    simp only [Term.Reads, Term.scannedLeaves, Term.skippedLeaves] at h
    exact Or.inr (Formula.builtFrom_of_reads value hT hH h)
  | .select memory index, _, _, _, _, hT, hH, h => by
    simp only [Term.Reads, Term.scannedLeaves, Term.skippedLeaves, List.mem_append, or_imp,
      forall_and] at h
    have hmemory : memory.Reads _ _ := Memory.reads_of_forall_leaves h.2.1
    exact Or.inr ⟨Memory.builtFrom_of_reads memory hH hH hmemory,
      Term.builtFrom_of_reads index hT hH ⟨h.1, h.2.2⟩⟩
  | .add lhs rhs, _, _, _, _, hT, hH, h | .sub lhs rhs, _, _, _, _, hT, hH, h
  | .mul lhs rhs, _, _, _, _, hT, hH, h | .div lhs rhs, _, _, _, _, hT, hH, h
  | .rem lhs rhs, _, _, _, _, hT, hH, h => by
    simp only [Term.Reads, Term.scannedLeaves, Term.skippedLeaves, List.mem_append, or_imp,
      forall_and] at h
    exact Or.inr ⟨Term.builtFrom_of_reads lhs hT hH ⟨h.1.1, h.2.1⟩,
      Term.builtFrom_of_reads rhs hT hH ⟨h.1.2, h.2.2⟩⟩
  | .neg inner, _, _, _, _, hT, hH, h => by
    simp only [Term.Reads, Term.scannedLeaves, Term.skippedLeaves] at h
    exact Or.inr (Term.builtFrom_of_reads inner hT hH h)

/-- A formula is built from its variables. -/
theorem Formula.builtFrom_of_reads : ∀ (φ : Formula) {V N : Leaf → Prop} {T H : Term → Prop},
    (∀ x, V x → x.IsBlock T) → (∀ x, N x → x.IsBlock H) → φ.Reads V N → φ.BuiltFrom T H
  | .tru, _, _, _, _, _, _, _ | .fls, _, _, _, _, _, _, _ => trivial
  | .var v, _, _, _, _, hT, _, h => hT _ (h.1 (.boolVar v) (by simp [Formula.scannedLeaves]))
  | .not inner, V, N, _, _, hT, hH, h =>
    Formula.builtFrom_of_reads inner hT hH (((hereditary_reads V N).not_iff inner).1 h)
  | .and items, V, N, _, _, hT, hH, h =>
    Formula.builtFrom_of_readsList items hT hH (((hereditary_reads V N).and_iff items).1 h)
  | .or items, V, N, _, _, hT, hH, h =>
    Formula.builtFrom_of_readsList items hT hH (((hereditary_reads V N).or_iff items).1 h)
  | .implies lhs rhs, V, N, _, _, hT, hH, h => by
    obtain ⟨hlhs, hrhs⟩ := ((hereditary_reads V N).implies_iff lhs rhs).1 h
    exact ⟨Formula.builtFrom_of_reads lhs hT hH hlhs, Formula.builtFrom_of_reads rhs hT hH hrhs⟩
  | .eq lhs rhs, _, _, _, _, hT, hH, h | .lt lhs rhs, _, _, _, _, hT, hH, h
  | .le lhs rhs, _, _, _, _, hT, hH, h | .gt lhs rhs, _, _, _, _, hT, hH, h
  | .ge lhs rhs, _, _, _, _, hT, hH, h => by
    simp only [Formula.Reads, Formula.scannedLeaves, Formula.skippedLeaves, List.mem_append,
      or_imp, forall_and] at h
    exact ⟨Term.builtFrom_of_reads lhs hT hH ⟨h.1.1, h.2.1⟩,
      Term.builtFrom_of_reads rhs hT hH ⟨h.1.2, h.2.2⟩⟩
  | .memoryEq lhs rhs, _, _, _, _, hT, hH, h => by
    simp only [Formula.Reads, Formula.scannedLeaves, Formula.skippedLeaves, List.mem_append,
      or_imp, forall_and] at h
    exact ⟨Memory.builtFrom_of_reads lhs hT hH ⟨h.1.1, h.2.1⟩,
      Memory.builtFrom_of_reads rhs hT hH ⟨h.1.2, h.2.2⟩⟩

theorem Formula.builtFrom_of_readsList : ∀ (items : List Formula) {V N : Leaf → Prop}
    {T H : Term → Prop}, (∀ x, V x → x.IsBlock T) → (∀ x, N x → x.IsBlock H) →
      (∀ φ ∈ items, φ.Reads V N) → Formula.BuiltFromList items T H
  | [], _, _, _, _, _, _, _ => trivial
  | item :: rest, _, _, _, _, hT, hH, h => by
    rw [List.forall_mem_cons] at h
    exact ⟨Formula.builtFrom_of_reads item hT hH h.1,
      Formula.builtFrom_of_readsList rest hT hH h.2⟩

end

end Leaves

end Blocks

/-! ### Operands -/

/-- A term and the terms it is computed from, except for those inside a memory or a coerced
formula. -/
def Term.operands : Term → List Term
  | .var v => [.var v]
  | .int value => [.int value]
  | .real value => [.real value]
  | .boolToInt value => [.boolToInt value]
  | .select memory index => .select memory index :: index.operands
  | .add lhs rhs => .add lhs rhs :: (lhs.operands ++ rhs.operands)
  | .sub lhs rhs => .sub lhs rhs :: (lhs.operands ++ rhs.operands)
  | .mul lhs rhs => .mul lhs rhs :: (lhs.operands ++ rhs.operands)
  | .div lhs rhs => .div lhs rhs :: (lhs.operands ++ rhs.operands)
  | .rem lhs rhs => .rem lhs rhs :: (lhs.operands ++ rhs.operands)
  | .neg inner => .neg inner :: inner.operands
termination_by structural t => t

/-- The operands of the terms that are stored. -/
def Memory.operands : Memory → List Term
  | .var _ => []
  | .store memory index value => memory.operands ++ index.operands ++ value.operands
termination_by structural m => m

mutual

/-- The operands of the comparisons among the conjuncts. -/
def Formula.operands : Formula → List Term
  | .and items => Formula.operandsList items
  | .eq lhs rhs | .lt lhs rhs | .le lhs rhs | .gt lhs rhs | .ge lhs rhs =>
    lhs.operands ++ rhs.operands
  | .memoryEq lhs rhs => lhs.operands ++ rhs.operands
  | .tru | .fls | .var _ | .not _ | .or _ | .implies _ _ => []
termination_by structural φ => φ

/-- `Formula.operands` on a list of conjuncts. -/
def Formula.operandsList : List Formula → List Term
  | [] => []
  | item :: rest => item.operands ++ Formula.operandsList rest
termination_by structural items => items

end

theorem Formula.mem_operandsList {items : List Formula} {t : Term} :
    t ∈ Formula.operandsList items ↔ ∃ φ ∈ items, t ∈ φ.operands := by
  induction items with
  | nil => simp [Formula.operandsList]
  | cons item rest ih => simp [Formula.operandsList, ih]

theorem Term.mem_operands_self (t : Term) : t ∈ t.operands := by
  cases t <;> simp [Term.operands]

section Operands

variable {m : LeafMap} {V H : Leaf → Prop} {u : Term}

theorem Term.rebuild_mem_operands : ∀ t : Term, u ∈ t.operands →
    u.rebuild m ∈ (t.rebuild m).operands
  | .var v, h => by
    rw [Term.operands, List.mem_singleton] at h
    subst h
    exact Term.mem_operands_self _
  | .int _, h | .real _, h | .boolToInt _, h => by
    rw [Term.operands, List.mem_singleton] at h
    subst h
    exact Term.mem_operands_self _
  | .select memory index, h => by
    rw [Term.operands, List.mem_cons] at h
    rcases h with rfl | h
    · exact Term.mem_operands_self _
    · exact List.mem_cons_of_mem _ (Term.rebuild_mem_operands index h)
  | .add lhs rhs, h | .sub lhs rhs, h | .mul lhs rhs, h | .div lhs rhs, h | .rem lhs rhs, h => by
    rw [Term.operands, List.mem_cons, List.mem_append] at h
    rcases h with rfl | h | h
    · exact Term.mem_operands_self _
    · exact List.mem_cons_of_mem _ (List.mem_append_left _ (Term.rebuild_mem_operands lhs h))
    · exact List.mem_cons_of_mem _ (List.mem_append_right _ (Term.rebuild_mem_operands rhs h))
  | .neg inner, h => by
    rw [Term.operands, List.mem_cons] at h
    rcases h with rfl | h
    · exact Term.mem_operands_self _
    · exact List.mem_cons_of_mem _ (Term.rebuild_mem_operands inner h)

theorem Memory.rebuild_mem_operands : ∀ mem : Memory, u ∈ mem.operands →
    u.rebuild m ∈ (mem.rebuild m).operands
  | .var _, h => by cases h
  | .store memory index value, h => by
    rw [Memory.operands, List.mem_append, List.mem_append] at h
    rw [Memory.rebuild, Memory.operands, List.mem_append, List.mem_append]
    exact h.imp (Or.imp (Memory.rebuild_mem_operands memory) (Term.rebuild_mem_operands index))
      (Term.rebuild_mem_operands value)

/-- Simplifying a conjunction keeps the operands of the conjuncts, unless it collapses. -/
theorem Formula.mem_operands_of_flatten {items flat out : List Formula}
    (h : Connective.conj.flatten flat items = some out)
    (hu : (∃ φ ∈ items, u ∈ φ.operands) ∨ ∃ φ ∈ flat, u ∈ φ.operands) :
    ∃ φ ∈ out, u ∈ φ.operands := by
  induction items generalizing flat with
  | nil =>
    rw [Connective.flatten, Option.some.injEq] at h
    exact h ▸ hu.resolve_left (by simp)
  | cons item rest ih =>
    rw [Connective.flatten] at h
    rw [List.exists_mem_cons_iff] at hu
    split_ifs at h with hunit
    · refine ih h (hu.imp_left fun hitem ↦ hitem.resolve_left fun hmem ↦ ?_)
      -- The unit is `true`, which has no operands.
      rw [hunit, Connective.unit, Formula.operands] at hmem
      cases hmem
    split at h
    · rename_i inner hinner
      have hnode : item = .and inner := by
        cases item <;> simp_all [Connective.children?]
      refine ih h ?_
      rcases hu with (hitem | hrest) | ⟨φ, hφ, huφ⟩
      · rw [hnode, Formula.operands, Formula.mem_operandsList] at hitem
        obtain ⟨φ, hφ, huφ⟩ := hitem
        exact Or.inr ⟨φ, Connective.mem_foldl_pushNew.2 (Or.inr hφ), huφ⟩
      · exact Or.inl hrest
      · exact Or.inr ⟨φ, Connective.mem_foldl_pushNew.2 (Or.inl hφ), huφ⟩
    · refine ih h ?_
      rcases hu with (hitem | hrest) | ⟨φ, hφ, huφ⟩
      · exact Or.inr ⟨item, Connective.mem_pushNew.2 (Or.inr rfl), hitem⟩
      · exact Or.inl hrest
      · exact Or.inr ⟨φ, Connective.mem_pushNew.2 (Or.inl hφ), huφ⟩

theorem Connective.flatten_eq_none {c : Connective} {items flat : List Formula}
    (hunit : c.absorber ≠ c.unit) (h : c.absorber ∈ items) : c.flatten flat items = none := by
  induction items generalizing flat with
  | nil => cases h
  | cons item rest ih =>
    rw [Connective.flatten]
    split_ifs with hitem habs
    · exact ih ((List.mem_cons.1 h).resolve_left fun heq ↦ hunit (heq.trans hitem))
    · rfl
    · have hrest : c.absorber ∈ rest := (List.mem_cons.1 h).resolve_left fun heq ↦ habs heq.symm
      split
      · exact ih hrest
      · exact ih hrest

theorem Formula.andMany_eq_fls {items : List Formula} (h : .fls ∈ items) :
    Formula.andMany items = .fls := by
  rw [Formula.andMany, Connective.simplify,
    Connective.flatten_eq_none (c := .conj) (by simp [Connective.absorber, Connective.unit]) h]
  rfl

theorem Formula.mem_operands_andMany {items : List Formula} {φ : Formula} (hφ : φ ∈ items)
    (hu : u ∈ φ.operands) : Formula.andMany items = .fls ∨
      u ∈ (Formula.andMany items).operands := by
  have hout (out : List Formula) (h : Connective.conj.flatten [] items = some out) :
      ∃ ψ ∈ out, u ∈ ψ.operands := Formula.mem_operands_of_flatten h (Or.inl ⟨φ, hφ, hu⟩)
  rw [Formula.andMany, Connective.simplify]
  split
  · exact Or.inl rfl
  · rename_i h
    obtain ⟨ψ, hψ, -⟩ := hout _ h
    cases hψ
  · rename_i h
    obtain ⟨ψ, hψ, huψ⟩ := hout _ h
    exact Or.inr (List.mem_singleton.1 hψ ▸ huψ)
  · rename_i h
    refine Or.inr ?_
    rw [Connective.node, Formula.operands, Formula.mem_operandsList]
    exact hout _ h

mutual

/-- **Operands survive.** Unless the formula collapses to `false`, what a substitution makes of an
operand is an operand of what it makes of the formula. -/
theorem Formula.rebuild_mem_operands : ∀ φ : Formula, u ∈ φ.operands →
    φ.rebuild m = .fls ∨ u.rebuild m ∈ (φ.rebuild m).operands
  | .tru, h | .fls, h | .var _, h | .not _, h | .or _, h | .implies _ _, h => by cases h
  | .and items, h => by
    rw [Formula.operands, Formula.mem_operandsList] at h
    obtain ⟨φ, hφ, hu⟩ := h
    have hmem : φ.rebuild m ∈ items.map (Formula.rebuild m) := List.mem_map_of_mem hφ
    rw [Formula.rebuild, Formula.rebuildList_eq_map]
    rcases Formula.rebuild_mem_operandsList items φ hφ hu with hfls | hu
    · exact Or.inl (Formula.andMany_eq_fls (hfls ▸ hmem))
    · exact Formula.mem_operands_andMany hmem hu
  | .eq lhs rhs, h | .lt lhs rhs, h | .le lhs rhs, h | .gt lhs rhs, h | .ge lhs rhs, h => by
    rw [Formula.operands, List.mem_append] at h
    rw [Formula.rebuild, Formula.operands, List.mem_append]
    exact Or.inr (h.imp (Term.rebuild_mem_operands lhs) (Term.rebuild_mem_operands rhs))
  | .memoryEq lhs rhs, h => by
    rw [Formula.operands, List.mem_append] at h
    rw [Formula.rebuild, Formula.operands, List.mem_append]
    exact Or.inr (h.imp (Memory.rebuild_mem_operands lhs) (Memory.rebuild_mem_operands rhs))

theorem Formula.rebuild_mem_operandsList : ∀ items : List Formula, ∀ φ ∈ items, u ∈ φ.operands →
    φ.rebuild m = .fls ∨ u.rebuild m ∈ (φ.rebuild m).operands
  | [] => by simp
  | item :: rest => by
    rw [List.forall_mem_cons]
    exact ⟨Formula.rebuild_mem_operands item, Formula.rebuild_mem_operandsList rest⟩

end

/-- A term reads what its operands read. -/
theorem Term.Reads.operand : ∀ (t : Term), t.Reads V H → u ∈ t.operands → u.Reads V H
  | .var _, h, hu | .int _, h, hu | .real _, h, hu | .boolToInt _, h, hu => by
    rw [Term.operands, List.mem_singleton] at hu
    exact hu ▸ h
  | .select memory index, h, hu => by
    rw [Term.operands, List.mem_cons] at hu
    rcases hu with rfl | hu
    · exact h
    · simp only [Term.Reads, Term.scannedLeaves, Term.skippedLeaves, List.mem_append, or_imp,
        forall_and] at h
      exact Term.Reads.operand index ⟨h.1, h.2.2⟩ hu
  | .add lhs rhs, h, hu | .sub lhs rhs, h, hu | .mul lhs rhs, h, hu | .div lhs rhs, h, hu
  | .rem lhs rhs, h, hu => by
    rw [Term.operands, List.mem_cons, List.mem_append] at hu
    rcases hu with rfl | hu
    · exact h
    simp only [Term.Reads, Term.scannedLeaves, Term.skippedLeaves, List.mem_append, or_imp,
      forall_and] at h
    rcases hu with hu | hu
    · exact Term.Reads.operand lhs ⟨h.1.1, h.2.1⟩ hu
    · exact Term.Reads.operand rhs ⟨h.1.2, h.2.2⟩ hu
  | .neg inner, h, hu => by
    rw [Term.operands, List.mem_cons] at hu
    rcases hu with rfl | hu
    · exact h
    · simp only [Term.Reads, Term.scannedLeaves, Term.skippedLeaves] at h
      exact Term.Reads.operand inner h hu

theorem Memory.Reads.operand : ∀ (mem : Memory), mem.Reads V H → u ∈ mem.operands → u.Reads V H
  | .var _, _, hu => by cases hu
  | .store memory index value, h, hu => by
    simp only [Memory.Reads, Memory.scannedLeaves, Memory.skippedLeaves, List.mem_append, or_imp,
      forall_and] at h
    rw [Memory.operands, List.mem_append, List.mem_append] at hu
    rcases hu with (hu | hu) | hu
    · exact Memory.Reads.operand memory ⟨h.1.1.1, h.2.1.1⟩ hu
    · exact Term.Reads.operand index ⟨h.1.1.2, h.2.1.2⟩ hu
    · exact Term.Reads.operand value ⟨h.1.2, h.2.2⟩ hu

mutual

/-- A formula reads what its operands read. -/
theorem Formula.Reads.operand : ∀ (φ : Formula), φ.Reads V H → u ∈ φ.operands → u.Reads V H
  | .tru, _, hu | .fls, _, hu | .var _, _, hu | .not _, _, hu | .or _, _, hu
  | .implies _ _, _, hu => by cases hu
  | .and items, h, hu => by
    rw [Formula.operands, Formula.mem_operandsList] at hu
    obtain ⟨φ, hφ, hu⟩ := hu
    exact Formula.Reads.operandList items (((hereditary_reads V H).and_iff items).1 h) φ hφ hu
  | .eq lhs rhs, h, hu | .lt lhs rhs, h, hu | .le lhs rhs, h, hu | .gt lhs rhs, h, hu
  | .ge lhs rhs, h, hu => by
    simp only [Formula.Reads, Formula.scannedLeaves, Formula.skippedLeaves, List.mem_append,
      or_imp, forall_and] at h
    rw [Formula.operands, List.mem_append] at hu
    rcases hu with hu | hu
    · exact Term.Reads.operand lhs ⟨h.1.1, h.2.1⟩ hu
    · exact Term.Reads.operand rhs ⟨h.1.2, h.2.2⟩ hu
  | .memoryEq lhs rhs, h, hu => by
    simp only [Formula.Reads, Formula.scannedLeaves, Formula.skippedLeaves, List.mem_append,
      or_imp, forall_and] at h
    rw [Formula.operands, List.mem_append] at hu
    rcases hu with hu | hu
    · exact Memory.Reads.operand lhs ⟨h.1.1, h.2.1⟩ hu
    · exact Memory.Reads.operand rhs ⟨h.1.2, h.2.2⟩ hu

theorem Formula.Reads.operandList : ∀ (items : List Formula), (∀ φ ∈ items, φ.Reads V H) →
    ∀ φ ∈ items, u ∈ φ.operands → u.Reads V H
  | [], _ => by simp
  | item :: rest, h => by
    rw [List.forall_mem_cons] at h ⊢
    exact ⟨Formula.Reads.operand item h.1, Formula.Reads.operandList rest h.2⟩

end

end Operands

end MayMust
