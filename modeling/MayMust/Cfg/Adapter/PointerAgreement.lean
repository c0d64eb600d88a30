import MayMust.Cfg.Adapter.PointerProgram

/-!
# Where the resolver is right

The resolver walks the nodes once, in one order. What it knows at a node is therefore what a single
execution along this order knows, even if no execution of the graph takes this order: on a diamond
whose branches store different pointers in one cell, the join is resolved with the pointer of the
branch visited last (`not_resolvesAccesses_diamond`).

An execution along the visiting order in which pointers are only stored at, and loaded from, cells
at constant offsets computes exactly the environment of the resolver (`Resolver.Knows`). An
execution of the graph agrees with it on the origin of every pointer if each pointer it loads from
memory has the origin it has in the visiting order, and then every rewritten access hits the cell of
the program, provided that pointers are used while their offsets have the values they had when the
pointers were computed (`resolvesAccesses_of_visit`). -/

namespace MayMust

open Library

/-! ### The property -/

/-- The variable a real in a cell is kept in. -/
def slotVar (region : String) (k : Int64) : Var := ⟨region ++ "$slot" ++ toString k, .real⟩

/-- The effect a load or a store was rewritten to accesses the cell. -/
def TransferEffect.RewrittenAccesses (s : State) (cell : String × ℤ) :
    TransferEffect → TransferEffect → Prop
  | .load target _, .assign target' (.term (.select (.var region) offset)) =>
    target' = target ∧ cell = (region, (offset.eval s).toInt)
  | .load target _, .assign target' (.term (.var slot)) =>
    target' = target ∧ ∃ region k, slot = slotVar region k ∧ cell = (region, k.toInt)
  | .store _ value, .memoryStore region offset value' =>
    value' = value ∧ cell = (region, (offset.eval s).toInt)
  | .store _ value, .assign slot (.term value') =>
    value' = value ∧ ∃ region k, slot = slotVar region k ∧ cell = (region, k.toInt)
  | _, _ => False

/-- In every execution whose steps all satisfy `ok`, every load and store that was rewritten
accesses, in the state in which it is reached, the cell that the pointer program accesses. -/
def ResolvesAccesses (input : ResolverInput) (cfg : AbstractCfg)
    (ok : TransferEffect → PointerConfig → Prop) : Prop :=
  ∀ sem xs c₀ n c c' i e e' p v, c₀.Initial input cfg →
    cfg.PointerRun sem ok xs (cfg.entry, c₀) (n, c) →
    PointerEffects.Run sem ok ((cfg.transferAt n).effects.take i) c c' →
    (cfg.transferAt n).effects[i]? = some e →
    ok e c' → e.accessedPointer = some p → c'.pointer p = some v →
    ((resolveMemoryEffects input cfg).1.transferAt n).effects[i]? = some e' → e' ≠ e →
    e.RewrittenAccesses c'.state v.cell e'

/-! ### The condition -/

/-- The pointer is at a constant offset of a known region. -/
def PointerConfig.ConstantSlot (c : PointerConfig) (slot : String) : Prop :=
  ∃ a b k, c.pointer slot = some a ∧ a.origin = some b ∧ b.offset.tryAsConstantInt = some k ∧
    a.cell = (b.region, k.toInt)

/-- A pointer is stored through a constant slot and comes from a known object; a pointer is loaded
through a constant slot, from a cell that a pointer has been stored in. -/
def TransferEffect.Plain : TransferEffect → PointerConfig → Prop
  | .pointerStore targetSlot valuePtr, c =>
    c.ConstantSlot targetSlot ∧ ∃ v b, c.pointer valuePtr = some v ∧ v.origin = some b
  | .pointerLoad _ sourceSlot, c =>
    c.ConstantSlot sourceSlot ∧ ∀ a, c.pointer sourceSlot = some a → (c.content a.cell).isSome
  | _, _ => True

/-- Pointers are moved and accessed while their offsets have the values they were computed with, and
a pointer that is loaded has the origin that it has in the configuration `ref`. -/
def TransferEffect.Steady (ref : PointerConfig) : TransferEffect → PointerConfig → Prop
  | .getElementPtr _ p _, c | .load _ p, c | .store p _, c =>
    ∀ v, c.pointer p = some v → v.Current c.state
  | .pointerLoad targetPtr sourceSlot, c =>
    ∀ a, c.pointer sourceSlot = some a → ∃ v, c.content a.cell = some v ∧
      ∀ w, ref.pointer targetPtr = some w → v.origin = w.origin
  | _, _ => True

/-- The effects in the order in which the resolver visits them. -/
def AbstractCfg.visitedEffects (cfg : AbstractCfg) : List TransferEffect :=
  cfg.visitOrder.flatMap fun n ↦ (cfg.transferAt n).effects

/-! ### The resolver follows the visiting order -/

section Visit

variable {input : ResolverInput} {sem : Semantics} {ok : TransferEffect → PointerConfig → Prop}
  {st : Resolver} {c c' ref : PointerConfig} {e : TransferEffect} {es : List TransferEffect}
  {n : CfgNodeId} {p : String} {v : PointerValue} {b : PointerBinding}

/-- What the resolver knows is what is known about the pointers of the configuration. -/
structure Resolver.Knows (st : Resolver) (c : PointerConfig) : Prop where
  env : ∀ p, st.env p = (c.pointer p).bind (·.origin)
  ptrAt : ∀ r k, st.ptrAt (r, k) = (c.content (r, k.toInt)).bind (·.origin)
  known : ∀ a v, c.content a = some v → v.origin.isSome

namespace Resolver.Knows

theorem env_eq (h : st.Knows c) (hv : c.pointer p = some v) : st.env p = v.origin := by
  rw [h.env, hv, Option.bind_some]

/-- The tables that are not about pointers do not matter. -/
theorem of_eq {st' : Resolver} (h : st.Knows c) (henv : st'.env = st.env)
    (hptrAt : st'.ptrAt = st.ptrAt) : st'.Knows c :=
  ⟨henv ▸ h.env, hptrAt ▸ h.ptrAt, h.known⟩

theorem bind (h : st.Knows c) (hb : v.origin = some b) : (st.bind p b).Knows (c.bind p v) where
  env q := by
    by_cases hq : q = p
    · subst hq
      simp [Resolver.bind, PointerConfig.bind, hb]
    · simpa [Resolver.bind, PointerConfig.bind, Function.update_of_ne hq] using h.env q
  ptrAt := h.ptrAt
  known := h.known

theorem bind? (h : st.Knows c) (hp : c.pointer p = none) :
    (st.bind? p v.origin).Knows (c.bind p v) := by
  cases hv : v.origin with
  | some b => exact h.bind hv
  | none =>
    refine ⟨fun q ↦ ?_, h.ptrAt, h.known⟩
    show st.env q = _
    by_cases hq : q = p
    · subst hq
      simp [PointerConfig.bind, h.env, hp, hv]
    · simpa [PointerConfig.bind, Function.update_of_ne hq] using h.env q

theorem hold {r : String} {k : Int64} (h : st.Knows c) (hv : v.origin = some b) :
    (st.setPtrAt r k b).Knows (c.hold (r, k.toInt) v) where
  env := h.env
  ptrAt r' k' := by
    have hiff : (r', k'.toInt) = (r, k.toInt) ↔ (r', k') = (r, k) := by
      rw [Prod.mk.injEq, Prod.mk.injEq, Int64.toInt_inj]
    by_cases heq : (r', k') = (r, k)
    · obtain ⟨rfl, rfl⟩ := Prod.mk.inj heq
      simp [Resolver.setPtrAt, PointerConfig.hold, hv]
    · simpa [Resolver.setPtrAt, PointerConfig.hold, Function.update_of_ne heq,
        Function.update_of_ne (mt hiff.1 heq)] using h.ptrAt r' k'
  known a w hw := by
    by_cases ha : a = (r, k.toInt)
    · subst ha
      obtain rfl : v = w := by simpa [PointerConfig.hold] using hw
      simp [hv]
    · exact h.known a w (by simpa [PointerConfig.hold, Function.update_of_ne ha] using hw)

theorem afterPointerStore {slot q : String} (h : st.Knows c)
    (hplain : (TransferEffect.pointerStore slot q).Plain c)
    (hstep : (TransferEffect.pointerStore slot q).PointerStep sem c c') :
    (Resolver.afterPointerStore input st slot q).Knows c' := by
  obtain ⟨⟨a, b, k, ha, hb, hk, hcell⟩, w, bw, hw, hbw⟩ := hplain
  obtain ⟨a', w', ha', hw', rfl⟩ := hstep
  obtain rfl : a = a' := Option.some.inj (ha.symm.trans ha')
  obtain rfl : w = w' := Option.some.inj (hw.symm.trans hw')
  have hslot := (h.env_eq ha).trans hb
  have hvalue := (h.env_eq hw).trans hbw
  simp only [Resolver.afterPointerStore, hslot, hvalue, hk]
  exact hcell ▸ h.hold hbw

theorem afterPointerLoad {q slot : String} (h : st.Knows c)
    (hplain : (TransferEffect.pointerLoad q slot).Plain c)
    (hstep : (TransferEffect.pointerLoad q slot).PointerStep sem c c') :
    (Resolver.afterPointerLoad input st q slot).Knows c' := by
  obtain ⟨⟨a, b, k, ha, hb, hk, hcell⟩, hfull⟩ := hplain
  obtain ⟨a', w, ha', hw, rfl⟩ := hstep
  obtain rfl : a = a' := Option.some.inj (ha.symm.trans ha')
  obtain ⟨u, hu⟩ := Option.isSome_iff_exists.1 (hfull a ha)
  obtain rfl := hw u hu
  obtain ⟨bw, hbw⟩ := Option.isSome_iff_exists.1 (h.known a.cell w hu)
  have hslot := (h.env_eq ha).trans hb
  have hheld : st.ptrAt (b.region, k) = some bw := by
    rw [h.ptrAt, ← hcell, hu, Option.bind_some, hbw]
  simp only [Resolver.afterPointerLoad, hslot, hk, Option.bind_some, hheld]
  exact h.bind hbw

/-- One effect of the visit keeps the resolver's knowledge exact. -/
theorem step (h : st.Knows c) (hnew : ∀ p, e.definedPointer = some p → c.pointer p = none)
    (hplain : e.Plain c) (hstep : e.PointerStep sem c c') :
    (Resolver.resolveEffect input n st e).1.Knows c' := by
  cases e with
  | alloca target region =>
    obtain rfl := hstep
    exact h.bind rfl
  | heapAlloc resultPtr region =>
    obtain rfl := hstep
    have hflat : ({ st with flat := st.flat.addRegion region } : Resolver).Knows c :=
      h.of_eq rfl rfl
    exact hflat.bind (v := .start region c.state) rfl
  | getElementPtr target base offset =>
    obtain ⟨w, m, hw, -, rfl⟩ := hstep
    have horigin : (w.advance offset m c.state).origin =
        (st.env base).map fun b ↦ ⟨b.region, .add b.offset offset⟩ := by
      rw [h.env_eq hw]
      rfl
    have hknows := h.bind? (v := w.advance offset m c.state) (hnew target rfl)
    rw [horigin] at hknows
    exact hknows
  | pointerStore targetSlot valuePtr => exact h.afterPointerStore hplain hstep
  | pointerLoad targetPtr sourceSlot => exact h.afterPointerLoad hplain hstep
  | pointerAlias target source =>
    obtain ⟨w, hw, rfl⟩ := hstep
    have hknows := h.bind? (v := w) (hnew target rfl)
    rw [← h.env_eq hw] at hknows
    exact hknows
  | load target source =>
    obtain ⟨a, x, -, -, -, rfl⟩ := hstep
    exact ⟨h.env, h.ptrAt, h.known⟩
  | store target value =>
    obtain ⟨a, -, rfl⟩ := hstep
    rw [PointerConfig.write]
    split <;> exact ⟨h.env, h.ptrAt, h.known⟩
  | assign target value =>
    obtain ⟨-, s, -, rfl⟩ := hstep
    have hst : st.Knows (c.withState s) := ⟨h.env, h.ptrAt, h.known⟩
    cases value with
    | predicate φ => exact hst
    | term t =>
      unfold Resolver.resolveEffect
      simp only
      split
      · exact hst.of_eq rfl rfl
      · exact hst
  | assume _ | typeBound _ | obligation _ | nop =>
    obtain ⟨-, s, -, rfl⟩ := hstep
    exact ⟨h.env, h.ptrAt, h.known⟩
  | memoryStore _ _ _ | structFieldGep _ _ _ | ptrToInt _ _ | intToPtr _ _ | call _ _
  | havocRegions _ | indirectCall _ _ =>
    exact hstep.1.elim

end Resolver.Knows

/-- What the definition of a pointer says about its origin. -/
def TransferEffect.Solves (ref : PointerConfig) : TransferEffect → Prop
  | .alloca target region | .heapAlloc target region =>
    ∀ w, ref.pointer target = some w → w.origin = some ⟨region, .int 0⟩
  | .getElementPtr target base offset =>
    ∀ w, ref.pointer target = some w → ∃ u, ref.pointer base = some u ∧
      w.origin = u.origin.map fun b ↦ ⟨b.region, .add b.offset offset⟩
  | .pointerAlias target source =>
    ∀ w, ref.pointer target = some w → ∃ u, ref.pointer source = some u ∧ w.origin = u.origin
  | _ => True

/-- Once a definition has been executed, the final configuration satisfies its equation. -/
theorem TransferEffect.PointerStep.solves (hstep : e.PointerStep sem c c')
    (hkeep : ∀ q u, c.pointer q = some u → ref.pointer q = some u)
    (hkeep' : ∀ q u, c'.pointer q = some u → ref.pointer q = some u) : e.Solves ref := by
  have hbound {target : String} {u w : PointerValue} (hc' : c' = c.bind target u)
      (hw : ref.pointer target = some w) : w = u := by
    have hu := hkeep' target u (by rw [hc']; exact Function.update_self ..)
    exact Option.some.inj (hw.symm.trans hu)
  cases e with
  | alloca target region | heapAlloc target region =>
    intro w hw
    rw [hbound hstep hw]
    rfl
  | getElementPtr target base offset =>
    obtain ⟨u, m, hu, -, hc'⟩ := hstep
    intro w hw
    rw [hbound hc' hw]
    exact ⟨u, hkeep base u hu, rfl⟩
  | pointerAlias target source =>
    obtain ⟨u, hu, hc'⟩ := hstep
    intro w hw
    rw [hbound hc' hw]
    exact ⟨u, hkeep source u hu, rfl⟩
  | _ => trivial

theorem solves_of_run (hnew : c.Unbound es) (hrun : PointerEffects.Run sem ok es c ref) :
    ∀ e ∈ es, e.Solves ref := by
  induction es generalizing c with
  | nil => simp
  | cons e es ih =>
    have hkeep q u (hu : c.pointer q = some u) := hnew.pointer_eq_of_run hrun hu
    obtain ⟨m, ⟨-, hstep⟩, hrun⟩ := hrun
    have hnew' := hnew.step hstep
    have hhead : e.Solves ref := hstep.solves hkeep fun q u ↦ hnew'.pointer_eq_of_run hrun
    exact List.forall_mem_cons.2 ⟨hhead, ih hnew' hrun⟩

/-- What the resolver knows stays true to the end of the visit. -/
def Resolver.Sound (ref : PointerConfig) (st : Resolver) : Prop :=
  ∀ p b, st.env p = some b → ∃ w, ref.pointer p = some w ∧ w.origin = some b

theorem Resolver.Knows.sound (h : st.Knows c) (hnew : c.Unbound es)
    (hrun : PointerEffects.Run sem ok es c ref) : st.Sound ref := by
  intro p b hb
  rw [h.env, Option.bind_eq_some_iff] at hb
  obtain ⟨w, hw, horigin⟩ := hb
  exact ⟨w, hnew.pointer_eq_of_run hrun hw, horigin⟩

/-- The effects of a node: each is rewritten with sound knowledge, and the knowledge stays exact. -/
theorem Resolver.Knows.resolveEffects {rest : List TransferEffect} (h : st.Knows c)
    (hnew : c.Unbound (es ++ rest))
    (hrun : PointerEffects.Run sem TransferEffect.Plain (es ++ rest) c ref) :
    (∃ m, (Resolver.resolveEffects input n st es).1.Knows m ∧ m.Unbound rest ∧
      PointerEffects.Run sem TransferEffect.Plain rest m ref) ∧
    ∀ (i : ℕ) (e' : TransferEffect),
      (Resolver.resolveEffects input n st es).2[i]? = some e' →
      ∃ st' e, st'.Sound ref ∧ es[i]? = some e ∧
        e' = (Resolver.resolveEffect input n st' e).2 := by
  induction es generalizing st c with
  | nil => exact ⟨⟨c, h, hnew, hrun⟩, by simp [Resolver.resolveEffects]⟩
  | cons e es ih =>
    have hsound := h.sound hnew hrun
    obtain ⟨m, ⟨hplain, hstep⟩, hrun⟩ := hrun
    have hdef q (hq : e.definedPointer = some q) : c.pointer q = none :=
      hnew.2 q (by simp [hq])
    obtain ⟨hrest, heffects⟩ := ih (h.step hdef hplain hstep) (hnew.step hstep) hrun
    refine ⟨hrest, fun i e' he' ↦ ?_⟩
    cases i with
    | zero =>
      obtain rfl : (Resolver.resolveEffect input n st e).2 = e' := Option.some.inj he'
      exact ⟨st, e, hsound, rfl, rfl⟩
    | succ i => exact heffects i e' he'

/-- A load or a store that is rewritten is rewritten with the binding of its pointer. -/
theorem Resolver.rewrittenAccesses_resolveEffect (he : e.accessedPointer = some p)
    (hne : (Resolver.resolveEffect input n st e).2 ≠ e) :
    ∃ b, st.env p = some b ∧ ∀ s cell, cell = (b.region, (b.offset.eval s).toInt) →
      e.RewrittenAccesses s cell (Resolver.resolveEffect input n st e).2 := by
  have hslot {b : PointerBinding} {slot : Var} (s : State)
      (hs : scalarMemorySlotVar b.region b.offset .real = some slot) :
      ∃ region k, slot = slotVar region k ∧
        (b.region, (b.offset.eval s).toInt) = (region, k.toInt) := by
    unfold scalarMemorySlotVar at hs
    split at hs
    · rename_i k hk
      exact ⟨b.region, k, (Option.some.inj hs).symm, by rw [hk, Term.eval, Value.toInt_int]⟩
    · cases hs
  cases e with
  | load target source =>
    obtain rfl : source = p := Option.some.inj he
    show ∃ b, _ ∧ ∀ s cell, _ → TransferEffect.RewrittenAccesses s cell _ (st.resolveLoad ..)
    replace hne : st.resolveLoad target source ≠ .load target source := hne
    unfold Resolver.resolveLoad at hne ⊢
    cases hb : st.env source with
    | none => simp [hb] at hne
    | some b =>
      simp only [hb] at hne ⊢
      refine ⟨b, rfl, fun s cell hcell ↦ ?_⟩
      split_ifs at hne ⊢ with hreal
      · cases hv : scalarMemorySlotVar b.region b.offset .real with
        | none => simp [hv] at hne
        | some slot =>
          obtain ⟨region, k, hslot, hk⟩ := hslot s hv
          exact ⟨rfl, region, k, hslot, hcell.trans hk⟩
      · exact ⟨rfl, hcell⟩
  | store target value =>
    obtain rfl : target = p := Option.some.inj he
    show ∃ b, _ ∧ ∀ s cell, _ → TransferEffect.RewrittenAccesses s cell _ (st.resolveStore ..)
    replace hne : st.resolveStore target value ≠ .store target value := hne
    unfold Resolver.resolveStore at hne ⊢
    cases hb : st.env target with
    | none => simp [hb] at hne
    | some b =>
      simp only [hb] at hne ⊢
      refine ⟨b, rfl, fun s cell hcell ↦ ?_⟩
      split_ifs at hne ⊢ with hreal
      · cases hv : scalarMemorySlotVar b.region b.offset .real with
        | none => simp [hv] at hne
        | some slot =>
          obtain ⟨region, k, hslot, hk⟩ := hslot s hv
          exact ⟨rfl, region, k, hslot, hcell.trans hk⟩
      · exact ⟨rfl, hcell⟩
  | _ => cases he

theorem Resolver.transferAt_foldl_resolveNode {order : List CfgNodeId}
    {acc : AbstractCfg × Resolver}
    (hn : n ∉ order) :
    (order.foldl (Resolver.resolveNode input) acc).1.transferAt n = acc.1.transferAt n := by
  induction order generalizing acc with
  | nil => rfl
  | cons m order ih =>
    rw [List.mem_cons, not_or] at hn
    rw [List.foldl_cons, ih hn.2]
    exact AbstractCfg.transferAt_setEffects_of_ne _ hn.1

/-- Every effect of a visited node is rewritten with sound knowledge. -/
theorem Resolver.Knows.resolveNodes {order : List CfgNodeId} {acc : AbstractCfg × Resolver}
    (h : acc.2.Knows c) (hnodup : order.Nodup) (hmem : ∀ n ∈ order, n ∈ acc.1.nodeIds)
    (hnew : c.Unbound (order.flatMap fun n ↦ (acc.1.transferAt n).effects))
    (hrun : PointerEffects.Run sem TransferEffect.Plain
      (order.flatMap fun n ↦ (acc.1.transferAt n).effects) c ref)
    (hn : n ∈ order) (i : ℕ) (e' : TransferEffect)
    (he' : ((order.foldl (Resolver.resolveNode input) acc).1.transferAt n).effects[i]? = some e') :
    ∃ st e, st.Sound ref ∧ (acc.1.transferAt n).effects[i]? = some e ∧
      e' = (Resolver.resolveEffect input n st e).2 := by
  induction order generalizing acc c with
  | nil => simp at hn
  | cons m order ih =>
    rw [List.nodup_cons] at hnodup
    rw [List.forall_mem_cons] at hmem
    rw [List.flatMap_cons] at hnew hrun
    have hstep := @resolveEffects input sem acc.2 c ref (acc.1.transferAt m).effects m _ h hnew hrun
    obtain ⟨⟨c₁, hknows, hnew₁, hrun₁⟩, heffects⟩ := hstep
    rw [List.foldl_cons] at he'
    -- the later nodes keep their effects until they are visited
    have hother k (hk : k ∈ order) :
        (Resolver.resolveNode input acc m).1.transferAt k = acc.1.transferAt k :=
      AbstractCfg.transferAt_setEffects_of_ne _ fun heq ↦ hnodup.1 (heq ▸ hk)
    have hlater : (order.flatMap fun k ↦
      ((Resolver.resolveNode input acc m).1.transferAt k).effects) =
        order.flatMap fun k ↦ (acc.1.transferAt k).effects :=
      List.flatMap_congr fun k hk ↦ by rw [hother k hk]
    rcases List.mem_cons.1 hn with rfl | hn
    · rw [Resolver.transferAt_foldl_resolveNode hnodup.1] at he'
      have hself : (Resolver.resolveNode input acc n).1.transferAt n =
          ⟨(Resolver.resolveEffects input n acc.2 (acc.1.transferAt n).effects).2⟩ :=
        AbstractCfg.transferAt_setEffects_self _ hmem.1
      rw [hself] at he'
      exact heffects i e' he'
    · obtain ⟨st, e, hst, he, heq⟩ := ih hknows hnodup.2
        (fun k hk ↦ (AbstractCfg.nodeIds_setEffects ..).symm ▸ hmem.2 k hk)
        (hlater.symm ▸ hnew₁) (hlater.symm ▸ hrun₁) hn he'
      exact ⟨st, e, hst, hother n hn ▸ he, heq⟩

theorem AbstractCfg.visitOrder_nodup (cfg : AbstractCfg) : cfg.visitOrder.Nodup := by
  rw [AbstractCfg.visitOrder]
  cases horder : cfg.topologicalOrderExcluding cfg.detectBackEdges.toFinset with
  | none => exact cfg.nodeIds_nodup
  | some order => exact (AbstractCfg.topologicalOrderExcluding_sorted horder).1

theorem AbstractCfg.mem_visitOrder {cfg : AbstractCfg} : n ∈ cfg.visitOrder ↔ n ∈ cfg.nodeIds := by
  rw [AbstractCfg.visitOrder]
  cases horder : cfg.topologicalOrderExcluding cfg.detectBackEdges.toFinset with
  | none => rfl
  | some order => exact (AbstractCfg.topologicalOrderExcluding_sorted horder).2.1 n

/-- The visit executes every definition once. -/
theorem AbstractCfg.definedPointers_perm (cfg : AbstractCfg) :
    (cfg.visitedEffects.filterMap (·.definedPointer)).Perm cfg.definedPointers := by
  have horder : cfg.visitOrder.Perm cfg.nodeIds :=
    (List.perm_ext_iff_of_nodup cfg.visitOrder_nodup cfg.nodeIds_nodup).2 fun n ↦
      AbstractCfg.mem_visitOrder
  have hnodes : (cfg.nodeIds.flatMap fun n ↦ (cfg.transferAt n).effects) =
      cfg.nodes.flatMap (·.transfer.effects) := by
    rw [AbstractCfg.nodeIds, List.flatMap_map]
    refine List.flatMap_congr fun node hnode ↦ ?_
    rw [AbstractCfg.transferAt_eq (AbstractCfg.node_eq_ok hnode)]
  have hperm := (horder.flatMap_right fun n ↦ (cfg.transferAt n).effects)
  rw [hnodes] at hperm
  exact hperm.filterMap _

theorem PointerConfig.Initial.unbound {cfg : AbstractCfg} (h : c.Initial input cfg)
    (hcfg : cfg.PointerProgram) : c.Unbound cfg.visitedEffects :=
  ⟨cfg.definedPointers_perm.nodup_iff.2 hcfg.definedPointers_nodup, fun p hp ↦
    h.undefined p (cfg.definedPointers_perm.mem_iff.1 hp)⟩

theorem Resolver.ptrAt_seed (input : ResolverInput) :
    (Resolver.seed input).ptrAt = fun _ ↦ none := by
  have hparam (st : Resolver) (index : ℕ) : (st.seedParam input index).ptrAt = st.ptrAt := by
    rw [Resolver.seedParam]
    split <;> rfl
  have hvtable (st : Resolver) (region : String) (entries : Option (List (Option String))) :
      (st.addVtable region entries).ptrAt = st.ptrAt := by
    rw [Resolver.addVtable]
    split <;> rfl
  have hoperand (st : Resolver) (op : PointerOperand) :
    (st.seedOperand input op).ptrAt = st.ptrAt := by
    rw [Resolver.seedOperand]
    dsimp only
    split
    · rw [hvtable]
      split <;> rfl
    · split
      · split
        · exact hvtable ..
        · rfl
      · rfl
  rw [Resolver.seed]
  refine List.foldlRecOn (motive := fun st ↦ st.ptrAt = fun _ ↦ none) _ _ ?_
    fun st hst op _ ↦ (hoperand st op).trans hst
  refine List.foldlRecOn (motive := fun st ↦ st.ptrAt = fun _ ↦ none) _ _ ?_
    fun st hst index _ ↦ (hparam st index).trans hst
  rfl

theorem PointerConfig.Initial.knows {cfg : AbstractCfg} (h : c.Initial input cfg) :
    (Resolver.seed input).Knows c where
  env p := (h.origin p).symm
  ptrAt r k := by rw [Resolver.ptrAt_seed, h.content, Option.bind_none]
  known a v hv := by simp [h.content] at hv

/-- In the resolved graph, every effect of a node is rewritten with knowledge that is true of the
visit. -/
theorem resolveMemoryEffects_sound {cfg : AbstractCfg} (hcfg : cfg.PointerProgram)
    (hc : c.Initial input cfg)
    (hvisit : PointerEffects.Run sem TransferEffect.Plain cfg.visitedEffects c ref)
    (hn : n ∈ cfg.nodeIds) (i : ℕ) (e' : TransferEffect)
    (he' : ((resolveMemoryEffects input cfg).1.transferAt n).effects[i]? = some e') :
    ∃ st e, st.Sound ref ∧ (cfg.transferAt n).effects[i]? = some e ∧
      e' = (Resolver.resolveEffect input n st e).2 := by
  have hknows : ((cfg, Resolver.seed input) : AbstractCfg × Resolver).2.Knows c := hc.knows
  exact hknows.resolveNodes cfg.visitOrder_nodup (fun _ ↦ AbstractCfg.mem_visitOrder.1)
    (hc.unbound hcfg) hvisit (AbstractCfg.mem_visitOrder.2 hn) i e' he'

end Visit

/-! ### Executions follow the visit -/

section Follow

variable {input : ResolverInput} {cfg : AbstractCfg} {sem : Semantics} {c c' ref : PointerConfig}
  {e : TransferEffect} {es : List TransferEffect}

/-- Pointers have the origins they have in the reference, and point where these say. -/
structure PointerConfig.Follows (c ref : PointerConfig) : Prop where
  origin : ∀ p v w, c.pointer p = some v → ref.pointer p = some w → v.origin = w.origin
  computed : ∀ p v, c.pointer p = some v → v.Computed
  content : ∀ a v, c.content a = some v → v.Computed

namespace PointerConfig.Follows

theorem bind {p : String} {v : PointerValue} (h : c.Follows ref)
    (horigin : ∀ w, ref.pointer p = some w → v.origin = w.origin) (hv : v.Computed) :
    (c.bind p v).Follows ref where
  origin q u w hu hw := by
    by_cases hq : q = p
    · subst hq
      obtain rfl : v = u := by simpa [PointerConfig.bind] using hu
      exact horigin w hw
    · exact h.origin q u w (by simpa [PointerConfig.bind, Function.update_of_ne hq] using hu) hw
  computed q u hu := by
    by_cases hq : q = p
    · subst hq
      obtain rfl : v = u := by simpa [PointerConfig.bind] using hu
      exact hv
    · exact h.computed q u (by simpa [PointerConfig.bind, Function.update_of_ne hq] using hu)
  content := h.content

/-- A step in which the pointers in use are current, and which loads the pointer that the reference
has, keeps the agreement. -/
theorem step (h : c.Follows ref) (he : e.OnScalars ∨ e.Solves ref) (hsteady : e.Steady ref c)
    (hstep : e.PointerStep sem c c') : c'.Follows ref := by
  have hpointers {c' : PointerConfig} (heq : c'.pointer = c.pointer ∧ c'.content = c.content) :
      c'.Follows ref :=
    ⟨heq.1 ▸ h.origin, heq.1 ▸ h.computed, heq.2 ▸ h.content⟩
  rcases he with hscalar | hsolves
  · exact hpointers (hstep.of_scalar hscalar)
  cases e with
  | alloca target region | heapAlloc target region =>
    obtain rfl := hstep
    exact h.bind (fun w hw ↦ (hsolves w hw).symm) (PointerValue.computed_start region c.state)
  | getElementPtr target base offset =>
    obtain ⟨v, m, hv, hm, rfl⟩ := hstep
    refine h.bind (fun w hw ↦ ?_) ((h.computed base v hv).advance (hsteady v hv) hm)
    obtain ⟨u, hu, horigin⟩ := hsolves w hw
    rw [horigin, ← h.origin base v u hv hu]
    rfl
  | pointerStore targetSlot valuePtr =>
    obtain ⟨a, v, -, hv, rfl⟩ := hstep
    refine ⟨h.origin, h.computed, fun cell u hu ↦ ?_⟩
    by_cases hcell : cell = a.cell
    · subst hcell
      obtain rfl : v = u := by simpa [PointerConfig.hold] using hu
      exact h.computed valuePtr v hv
    · exact h.content cell u (by simpa [PointerConfig.hold, Function.update_of_ne hcell] using hu)
  | pointerLoad targetPtr sourceSlot =>
    obtain ⟨a, v, ha, hv, rfl⟩ := hstep
    obtain ⟨u, hu, horigin⟩ := hsteady a ha
    obtain rfl := hv u hu
    exact h.bind horigin (h.content a.cell v hu)
  | pointerAlias target source =>
    obtain ⟨v, hv, rfl⟩ := hstep
    refine h.bind (fun w hw ↦ ?_) (h.computed source v hv)
    obtain ⟨u, hu, horigin⟩ := hsolves w hw
    rw [horigin, h.origin source v u hv hu]
  | load target source =>
    obtain ⟨a, x, -, -, -, rfl⟩ := hstep
    exact hpointers ⟨rfl, rfl⟩
  | store target value =>
    obtain ⟨a, -, rfl⟩ := hstep
    rw [PointerConfig.write]
    split <;> exact hpointers ⟨rfl, rfl⟩
  | _ => exact hpointers (hstep.of_scalar hstep.1)

theorem run (h : c.Follows ref) (hes : ∀ e ∈ es, e.OnScalars ∨ e.Solves ref)
    (hrun : PointerEffects.Run sem (TransferEffect.Steady ref) es c c') : c'.Follows ref :=
  Path.invariant (P := (·.Follows ref))
    (fun e he _ _ hstep hm ↦ hm.step (hes e he) hstep.1 hstep.2) hrun h

end PointerConfig.Follows

/-- On entry, a name has the origin it is seeded with, in every execution. -/
theorem PointerConfig.Initial.follows {start : PointerConfig} (hc : c.Initial input cfg)
    (hstart : start.Initial input cfg)
    (hvisit : PointerEffects.Run sem TransferEffect.Plain cfg.visitedEffects start ref) :
    c.Follows ref := by
  refine ⟨fun p v w hv hw ↦ ?_, hc.computed, fun a v hv ↦ by simp [hc.content] at hv⟩
  have hp : p ∉ cfg.visitedEffects.filterMap (·.definedPointer) := by
    intro hp
    have hnone := hc.undefined p (cfg.definedPointers_perm.mem_iff.1 hp)
    rw [hnone] at hv
    cases hv
  rw [PointerEffects.Run.pointer_eq hvisit hp] at hw
  have hseed := (hc.origin p).trans (hstart.origin p).symm
  rwa [hv, hw, Option.bind_some, Option.bind_some] at hseed

/-- Executions that load the pointers of the reference follow it. -/
theorem follows_of_pointerRun {xs : List PointerCrossing} {p q : CfgNodeId × PointerConfig}
    (hcfg : cfg.PointerProgram)
    (hsolves : ∀ n, ∀ e ∈ (cfg.transferAt n).effects, e.Solves ref)
    (hrun : cfg.PointerRun sem (TransferEffect.Steady ref) xs p q) (hp : p.2.Follows ref) :
    q.2.Follows ref := by
  refine Path.invariant (P := fun p : CfgNodeId × PointerConfig ↦ p.2.Follows ref)
    (fun x _ p q hx hp ↦ ?_) hrun hp
  obtain ⟨hvalid, rfl, rfl⟩ := hx
  have hmid : x.mid.Follows ref := hp.run (fun e he ↦ .inr (hsolves _ e he)) hvalid.transfer
  exact hmid.run (fun e he ↦ .inl (hcfg.edges_scalar x.edge hvalid.edge_mem e he)) hvalid.effects

/-- If pointers are stored and loaded at constant offsets in the visiting order, every rewritten
access of an execution that agrees with it on the origins of the pointers it loads, and that uses
pointers while their offsets keep their values, is the access of the program. -/
theorem resolvesAccesses_of_visit {start : PointerConfig} (hcfg : cfg.PointerProgram)
    (hstart : start.Initial input cfg)
    (hvisit : PointerEffects.Run sem TransferEffect.Plain cfg.visitedEffects start ref) :
    ResolvesAccesses input cfg (TransferEffect.Steady ref) := by
  intro sem' xs c₀ n c c' i e e' p v hc₀ hrun hpre he hsteady haccess hv he' hne
  have hsolved := solves_of_run (hstart.unbound hcfg) hvisit
  have hnode {n : CfgNodeId} {e : TransferEffect} (he : e ∈ (cfg.transferAt n).effects) :
      n ∈ cfg.nodeIds := by
    rw [AbstractCfg.transferAt] at he
    cases hn : cfg.node n with
    | error _ => simp [hn, TransferFn.identity] at he
    | ok node => exact List.mem_map.2 ⟨node, AbstractCfg.mem_of_node_eq_ok hn⟩
  have hsolves n : ∀ e ∈ (cfg.transferAt n).effects, e.Solves ref := fun e he ↦
    hsolved e (List.mem_flatMap.2 ⟨n, AbstractCfg.mem_visitOrder.2 (hnode he), he⟩)
  have hfollows : c.Follows ref :=
    follows_of_pointerRun hcfg hsolves hrun (hc₀.follows hstart hvisit)
  have hfollows' : c'.Follows ref :=
    hfollows.run (fun e he ↦ .inr (hsolves n e (List.mem_of_mem_take he))) hpre
  have hmem : e ∈ (cfg.transferAt n).effects := List.mem_of_getElem? he
  obtain ⟨st, e₁, hst, he₁, rfl⟩ :=
    resolveMemoryEffects_sound hcfg hstart hvisit (hnode hmem) i e' he'
  obtain rfl : e = e₁ := Option.some.inj (he.symm.trans he₁)
  obtain ⟨b, hb, hrewritten⟩ := Resolver.rewrittenAccesses_resolveEffect haccess hne
  obtain ⟨w, hw, horigin⟩ := hst p b hb
  have hvb : v.origin = some b := (hfollows'.origin p v w hv hw).trans horigin
  have hcurrent : v.Current c'.state := by
    cases e with
    | load target source =>
      obtain rfl : source = p := Option.some.inj haccess
      exact hsteady v hv
    | store target value =>
      obtain rfl : target = p := Option.some.inj haccess
      exact hsteady v hv
    | _ => cases haccess
  exact hrewritten c'.state v.cell ((hfollows'.computed p v hv).eval_offset hcurrent hvb)

/-! ### A diamond -/

/-- A function without parameters, globals or calls. -/
def ResolverInput.closed : ResolverInput where
  functionName := "main"
  params := []
  pointerParamIndices := []
  operands := []
  aliases := ⟨fun _ ↦ [], fun _ ↦ []⟩
  flat := ⟨[]⟩
  vtableMap := fun _ ↦ none
  summaries := fun _ ↦ none
  callArgs := fun _ ↦ none

/-- A slot `s` and two objects `a` and `b`. The first branch stores `a` in the slot and the second
one the given pointer; after the join the slot is loaded and the object is read. -/
def diamondCfg (second : String) : AbstractCfg where
  nodes := [⟨0, "entry", .entry,
      ⟨[.alloca "s" "main$stack0", .alloca "a" "main$stack1", .alloca "b" "main$stack2"]⟩⟩,
    ⟨1, "first", .normal, ⟨[.pointerStore "s" "a"]⟩⟩,
    ⟨2, "second", .normal, ⟨[.pointerStore "s" second]⟩⟩,
    ⟨3, "join", .exit, ⟨[.pointerLoad "q" "s", .load (.int "x") "q"]⟩⟩]
  edges := [⟨0, 0, 1, .boolVar "c", []⟩, ⟨1, 0, 2, .not (.boolVar "c"), []⟩, ⟨2, 1, 3, .tru, []⟩,
    ⟨3, 2, 3, .tru, []⟩]
  entry := 0
  concreteExits := [3]
  exit := some 3
  nextNode := 4
  nextEdge := 4
  nodes_sorted := by simp
  edges_sorted := by simp
  node_lt := by simp
  edge_lt := by simp
  entry_mem := by simp
  source_mem := by simp
  target_mem := by simp

theorem pointerProgram_diamondCfg (second : String) : (diamondCfg second).PointerProgram where
  edges_scalar := by simp [diamondCfg]
  definedPointers_nodup := by
    have hdefs : (diamondCfg second).definedPointers = ["s", "a", "b", "q"] := rfl
    rw [hdefs]
    decide

/-- Nothing has been computed. -/
def PointerConfig.empty : PointerConfig := ⟨.zero, fun _ ↦ none, fun _ ↦ none⟩

theorem initial_empty (cfg : AbstractCfg) : PointerConfig.empty.Initial .closed cfg where
  origin _ := rfl
  computed p v hv := by cases hv
  undefined _ _ := rfl
  content _ := rfl

/-- The start of an object, in the state all executions below begin and end with. -/
def objectStart (region : String) : PointerValue := .start region .zero

/-- After the entry. -/
def allocated : PointerConfig :=
  ((PointerConfig.empty.bind "s" (objectStart "main$stack0")).bind "a"
    (objectStart "main$stack1")).bind "b" (objectStart "main$stack2")

/-- Both branches store a different pointer. The second branch is visited first, so the load at the
join is resolved with the pointer of the first one, in executions through the second branch too. -/
theorem not_resolvesAccesses_diamond :
    (diamondCfg "b").PointerProgram ∧
      ¬ ResolvesAccesses .closed (diamondCfg "b") fun _ _ ↦ True := by
  refine ⟨pointerProgram_diamondCfg "b", fun h ↦ ?_⟩
  let stored : PointerConfig := allocated.hold ("main$stack0", 0) (objectStart "main$stack2")
  let loaded : PointerConfig := stored.bind "q" (objectStart "main$stack2")
  have hrun : (diamondCfg "b").PointerRun .unknownCallees (fun _ _ ↦ True)
      [⟨⟨1, 0, 2, .not (.boolVar "c"), []⟩, .empty, allocated, allocated⟩,
        ⟨⟨3, 2, 3, .tru, []⟩, allocated, stored, stored⟩] (0, .empty) (3, stored) := by
    refine ⟨(2, allocated), ⟨⟨by decide, ?_, ?_, rfl⟩, rfl, rfl⟩, (3, stored),
      ⟨⟨by decide, ?_, Formula.holds_tru _, rfl⟩, rfl, rfl⟩, rfl⟩
    · exact ⟨_, ⟨trivial, rfl⟩, _, ⟨trivial, rfl⟩, _, ⟨trivial, rfl⟩, rfl⟩
    · exact (Formula.holds_not _ _).2 Bool.false_ne_true
    · exact ⟨_, ⟨trivial, objectStart "main$stack0", objectStart "main$stack2", rfl, rfl, rfl⟩, rfl⟩
  have hload : PointerEffects.Run .unknownCallees (fun _ _ ↦ True)
      (((diamondCfg "b").transferAt 3).effects.take 1) stored loaded :=
    ⟨loaded, ⟨trivial, objectStart "main$stack0", objectStart "main$stack2", rfl,
      fun w hw ↦ Option.some.inj hw, rfl⟩, rfl⟩
  have hresolved : ((resolveMemoryEffects .closed (diamondCfg "b")).1.transferAt 3).effects[1]? =
      some (.assign (.int "x") (.term (.select (.var "main$stack1") (.int 0)))) := by decide
  have haccess := h .unknownCallees _ .empty 3 stored loaded 1 (.load (.int "x") "q") _ "q"
    (objectStart "main$stack2") (initial_empty _) hrun hload rfl trivial rfl rfl hresolved (by simp)
  have hregion := congrArg Prod.fst haccess.2
  exact absurd hregion (by decide)

/-- After both branches have stored `a` in the slot and the join has loaded it. -/
noncomputable def diamondVisit : PointerConfig :=
  (((allocated.hold ("main$stack0", 0) (objectStart "main$stack1")).hold ("main$stack0", 0)
    (objectStart "main$stack1")).bind "q" (objectStart "main$stack1")).withState
      (State.zero.set (.int "x") (.int 0))

/-- The diamond in the order in which it is visited. -/
theorem visit_diamondCfg :
    PointerEffects.Run .unknownCallees TransferEffect.Plain (diamondCfg "a").visitedEffects .empty
      diamondVisit := by
  have hvisited : (diamondCfg "a").visitedEffects =
      [.alloca "s" "main$stack0", .alloca "a" "main$stack1", .alloca "b" "main$stack2",
        .pointerStore "s" "a", .pointerStore "s" "a", .pointerLoad "q" "s",
        .load (.int "x") "q"] := by decide
  have hslot (c : PointerConfig) (hc : c.pointer "s" = some (objectStart "main$stack0")) :
      c.ConstantSlot "s" :=
    ⟨_, ⟨"main$stack0", .int 0⟩, 0, hc, rfl, rfl, rfl⟩
  rw [hvisited]
  refine ⟨_, ⟨trivial, rfl⟩, _, ⟨trivial, rfl⟩, _, ⟨trivial, rfl⟩,
    _, ⟨⟨hslot _ rfl, objectStart "main$stack1", ⟨"main$stack1", .int 0⟩, rfl, rfl⟩,
      objectStart "main$stack0", objectStart "main$stack1", rfl, rfl, rfl⟩,
    _, ⟨⟨hslot _ rfl, objectStart "main$stack1", ⟨"main$stack1", .int 0⟩, rfl, rfl⟩,
      objectStart "main$stack0", objectStart "main$stack1", rfl, rfl, rfl⟩,
    _, ⟨⟨hslot _ rfl, fun a ha ↦ ?_⟩, objectStart "main$stack0", objectStart "main$stack1", rfl,
      fun w hw ↦ Option.some.inj hw, rfl⟩,
    _, ⟨trivial, objectStart "main$stack1", .int 0, rfl, rfl, fun _ ↦ rfl, rfl⟩, rfl⟩
  obtain rfl : objectStart "main$stack0" = a := Option.some.inj ha
  rfl

/-- If both branches store the same pointer, the executions in which the slot holds it are resolved
as they should be. -/
theorem resolvesAccesses_diamond :
    diamondVisit.pointer "q" = some (objectStart "main$stack1") ∧
      ResolvesAccesses .closed (diamondCfg "a") (TransferEffect.Steady diamondVisit) :=
  ⟨rfl, @resolvesAccesses_of_visit .closed (diamondCfg "a") .unknownCallees diamondVisit .empty
    (pointerProgram_diamondCfg "a") (initial_empty _) visit_diamondCfg⟩

end Follow

end MayMust
