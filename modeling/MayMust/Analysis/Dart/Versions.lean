import MayMust.Analysis.Dart.Definitions

/-!
# Which definition a version belongs to

A use on a path should refer to its latest definition and to no other: it should be translated to the
variable that stands for the value of this definition, and no other definition may have this variable
(`UsesLatest`). With names that are pairwise distinct and fresh this is what a walk needs
(`WellVersioned`).

It is so just if the conditions of `Separated` are met. They speak of the definitions on the path
and of where they stand, not of the walk: no two renamed definitions of one name stand at one place,
no name made from such a place is a name of the program, and every use finds its latest definition
under its name (`wellVersioned_iff`). The last condition has two parts. The maps go by names and the
substitutions leave out real variables and Boolean variables below terms; and a name that is kept
must be kept once, and by no definition after the use.

What the maps of the walk hold can be read off the definitions so far (`VersionsAgree`), and every
item of the path keeps this (`VersionsAgree.step`).
-/

namespace MayMust

open Library

/-! ### Uses -/

/-- A variable that an effect reads: at an atom of a formula, in a term, or at an atom of a formula
that is coerced to a term. -/
inductive Use
  | atom (v : Var)
  | term (v : Var)
  | coerced (v : Var)

namespace Use

/-- The variable. -/
def var : Use → Var
  | atom v | term v | coerced v => v

/-- The walk looks for a version of the variable. -/
def IsRenamed : Use → Prop
  | atom v => v.sort = .bool
  | term v => v.sort = .int
  | coerced _ => False

instance : DecidablePred IsRenamed := fun use ↦
  match use with
  | atom v => inferInstanceAs (Decidable (v.sort = .bool))
  | term v => inferInstanceAs (Decidable (v.sort = .int))
  | coerced _ => instDecidableFalse

/-- The walk translates the use to the variable. -/
def RefersTo (order : HashOrder) (st : PathState) (w : Var) : Use → Prop
  | atom v => substFormulaWalk order (.var v) st.currentVersion st.memoryState = .var w
  | term v => substTermWalk order (.var v) st.currentVersion st.memoryState = .var w
  | coerced v => substTermWalk order (.boolToInt (.var v)) st.currentVersion st.memoryState =
    .boolToInt (.var w)

end Use

/-- A variable below terms. -/
def Leaf.use? : Leaf → Option Use
  | boolVar v => some (.coerced v)
  | termVar v => some (.term v)
  | region _ => none

/-- The uses in a term. -/
def Term.uses (t : Term) : List Use := t.leaves.filterMap Leaf.use?

/-- The uses in a formula. -/
def Formula.uses (φ : Formula) : List Use :=
  φ.atoms.map .atom ++ φ.termLeaves.filterMap Leaf.use?

namespace TransferEffect

/-- The uses that the walk translates. -/
def uses : TransferEffect → List Use
  | assign _ (.term t) => t.uses
  | assign _ (.predicate p) => p.uses
  | assume c | obligation c | typeBound c => c.uses
  | memoryStore _ offset value => offset.uses ++ value.uses
  | _ => []

/-- All variables of an effect. -/
def mentioned (e : TransferEffect) : List Var :=
  e.target?.toList ++ e.uses.map Use.var ++
    match e with
    | store _ value | getElementPtr _ _ value => value.uses.map Use.var
    | _ => []

end TransferEffect

/-- The name of a variable of the program. -/
def AbstractCfg.Names (cfg : AbstractCfg) (name : String) : Prop :=
  ∃ v : Var, v.name = name ∧
    ((∃ n, ∃ e ∈ (cfg.transferAt n).effects, v ∈ e.mentioned) ∨
      ∃ edge ∈ cfg.edges, (∃ e ∈ edge.effects, v ∈ e.mentioned) ∨ v ∈ edge.guard.uses.map Use.var)

/-! ### The walk -/

/-- The variable that stands for the value of a definition: the one of `version_var`, or, where the
walk does nothing, the variable itself. -/
def PathState.boundTo (st : PathState) (d : Definition) : Var :=
  if d.assigned then st.versioned d.place d.target else d.target

section Walk

variable (order : HashOrder)

/-- The definitions on the way and the variables that stand for their values. -/
def bound : List WalkItem → PathState → List (Definition × Var)
  | [], _ => []
  | item :: items, st =>
    (item.definition?.map fun d ↦ (d, st.boundTo d)).toList ++
      bound items (applyPathEffect order item.place st item.effect)

/-- The names that `version_var` gives. -/
def given (items : List WalkItem) (st : PathState) : List String :=
  ((bound order items st).filter (·.1.assigned)).map (·.2.name)

/-- The names that `version_var` makes. -/
def minted (items : List WalkItem) (st : PathState) : List String :=
  ((bound order items st).filter fun x ↦ x.2 ≠ x.1.target).map (·.2.name)

/-- Every use on the way refers to the variable of its latest definition, and this is the variable of
no other definition. The variables of the past definitions, the latest one among them, are
given, and for every variable the one that stands for its value. -/
def UsesLatest : List WalkItem → PathState → List Var → (Var → Var) → Prop
  | [], _, _, _ => True
  | item :: items, st, past, latest =>
    (∀ use ∈ item.effect.uses, use.RefersTo order st (latest use.var) ∧
      past.count (latest use.var) ≤ 1 ∧
      latest use.var ∉ (bound order (item :: items) st).map (·.2)) ∧
    UsesLatest items (applyPathEffect order item.place st item.effect)
      ((item.definition?.map st.boundTo).toList ++ past)
      (item.definition?.elim latest fun d ↦ Function.update latest d.target (st.boundTo d))

/-- The names that assignments get are distinct, those that are made are none of the program, and
every use refers to its latest definition. -/
structure WellVersioned (phi1 : Formula) (names : String → Prop) (items : List WalkItem) :
    Prop where
  distinct : (given order items (.start phi1)).Nodup
  fresh : ∀ name ∈ minted order items (.start phi1), ¬ names name
  latest : UsesLatest order items (.start phi1) [] id

end Walk

/-! ### The condition -/

/-- The use finds its latest definition: the last assignment to the name is renamed as the last
definition of the variable is, or neither is, where names are looked up; and if the last definition
keeps the name, or there is none, no other definition keeps it. -/
structure Use.Settled (items : List WalkItem) (earlier : List Definition) (use : Use) : Prop where
  found : (if use.IsRenamed then
      renamedPlace (fun d ↦ d.assigned ∧ d.target.name = use.var.name) earlier else none) =
    renamedPlace (·.target = use.var) earlier
  sole : renamedPlace (·.target = use.var) earlier = none →
    (kept (history earlier)).count use.var ≤ 1 ∧ use.var ∉ kept (definitionsFrom items earlier)

/-- Every use on the way is settled. -/
def UsesSettled : List WalkItem → List Definition → Prop
  | [], _ => True
  | item :: items, earlier =>
    (∀ use ∈ item.effect.uses, use.Settled (item :: items) earlier) ∧
    UsesSettled items (item.definition?.toList ++ earlier)

/-- What the versions of a path need. -/
structure Separated (names : String → Prop) (items : List WalkItem) : Prop where
  apart : (renamed (definitionsFrom items [])).Nodup
  fresh : ∀ x ∈ renamed (definitionsFrom items []), ¬ names (x.1.freshName x.2)
  settled : UsesSettled items []

/-! ### What a use is translated to -/

/-- The loop over the entries of `current_version`, on one variable. -/
def followEntries (mk : String → Var) (entries : List (Σ _ : String, String)) (v : Var) : Var :=
  entries.foldl (fun w entry ↦ if w = mk entry.1 then mk entry.2 else w) v

section Follow

variable {mk : String → Var} {entries : List (Σ _ : String, String)} {order : HashOrder}
  {st : PathState} {v w : Var}

theorem followEntries_of_forall_ne (h : ∀ entry ∈ entries, v ≠ mk entry.1) :
    followEntries mk entries v = v := by
  induction entries with
  | nil => rfl
  | cons entry entries ih =>
    rw [List.forall_mem_cons] at h
    rw [followEntries, List.foldl_cons, if_neg h.1]
    exact ih h.2

/-- A version that is no key itself is not replaced again. -/
theorem followEntries_of_mem (hmk : Function.Injective mk) {orig fresh : String}
    (hnodup : (entries.map (·.1)).Nodup) (hmem : ⟨orig, fresh⟩ ∈ entries)
    (hfresh : fresh ∉ entries.map (·.1)) : followEntries mk entries (mk orig) = mk fresh := by
  induction entries with
  | nil => exact absurd hmem List.not_mem_nil
  | cons entry entries ih =>
    rw [List.map_cons, List.nodup_cons] at hnodup
    rw [List.map_cons, List.mem_cons, not_or] at hfresh
    rw [followEntries, List.foldl_cons]
    obtain rfl | hmem := List.mem_cons.1 hmem
    · rw [if_pos rfl]
      refine followEntries_of_forall_ne fun entry hentry heq ↦ hfresh.2 ?_
      have hname : fresh = entry.1 := hmk heq
      rw [hname]
      exact List.mem_map_of_mem hentry
    · have hne : mk orig ≠ mk entry.1 := fun heq ↦
        hnodup.1 (hmk heq ▸ List.mem_map_of_mem hmem)
      rw [if_neg hne]
      exact ih hnodup.2 hmem hfresh.2

theorem foldl_substituteMemoryVar_var (stores : List (Σ _ : String, Memory)) :
    stores.foldl (fun φ entry ↦ substituteMemoryVarInFormula entry.1 entry.2 φ) (.var v) =
      .var v := by
  induction stores with
  | nil => rfl
  | cons entry stores ih => exact ih

theorem foldl_substituteMemoryVarInTerm_var (stores : List (Σ _ : String, Memory)) :
    stores.foldl (fun t entry ↦ substituteMemoryVarInTerm entry.1 entry.2 t) (.var v) =
      .var v := by
  induction stores with
  | nil => rfl
  | cons entry stores ih => exact ih

theorem foldl_renameStep_var :
    entries.foldl renameStep (.var v) = .var (followEntries Var.bool entries v) := by
  induction entries generalizing v with
  | nil => rfl
  | cons entry entries ih =>
    have hstep : renameStep (.var v) entry =
        .var (if v = .bool entry.1 then .bool entry.2 else v) := by
      rw [apply_ite Formula.var]
      rfl
    rw [List.foldl_cons, hstep, ih]
    rfl

theorem foldl_substituteVarInTerm_coerced :
    entries.foldl (fun t entry ↦ substituteVarInTerm (.int entry.1) (.var (.int entry.2)) t)
      (.boolToInt (.var v)) = .boolToInt (.var v) := by
  induction entries with
  | nil => rfl
  | cons entry entries ih => exact ih

theorem foldl_substituteMemoryVarInTerm_coerced (stores : List (Σ _ : String, Memory)) :
    stores.foldl (fun t entry ↦ substituteMemoryVarInTerm entry.1 entry.2 t)
      (.boolToInt (.var v)) = .boolToInt (.var v) := by
  induction stores with
  | nil => rfl
  | cons entry stores ih => exact ih

theorem foldl_substituteVarInTerm_var :
    entries.foldl (fun t entry ↦ substituteVarInTerm (.int entry.1) (.var (.int entry.2)) t)
      (.var v) = .var (followEntries Var.int entries v) := by
  induction entries generalizing v with
  | nil => rfl
  | cons entry entries ih =>
    have hstep : substituteVarInTerm (.int entry.1) (.var (.int entry.2)) (.var v) =
        .var (if v = .int entry.1 then .int entry.2 else v) := by
      rw [apply_ite Term.var]
      rfl
    rw [List.foldl_cons, hstep, ih]
    rfl

/-- What the walk translates a use to. -/
def Use.translated (order : HashOrder) (st : PathState) : Use → Var
  | atom v => followEntries Var.bool (order.versions st.currentVersion.entries) v
  | term v => followEntries Var.int (order.versions st.currentVersion.entries) v
  | coerced v => v

theorem refersTo_iff (use : Use) : use.RefersTo order st w ↔ use.translated order st = w := by
  cases use with
  | atom v =>
    rw [Use.RefersTo, substFormulaWalk, foldl_renameStep_var, foldl_substituteMemoryVar_var,
      Formula.var.injEq]
    rfl
  | term v =>
    rw [Use.RefersTo, substTermWalk, foldl_substituteVarInTerm_var,
      foldl_substituteMemoryVarInTerm_var, Term.var.injEq]
    rfl
  | coerced v =>
    rw [Use.RefersTo, substTermWalk, foldl_substituteVarInTerm_coerced,
      foldl_substituteMemoryVarInTerm_coerced, Term.boolToInt.injEq, Formula.var.injEq]
    rfl

/-- A variable is replaced by its version, provided no version is replaced again. -/
theorem followEntries_eq {sort : VarSort} (hmk : ∀ name, mk name = ⟨name, sort⟩)
    (hchain : ∀ name fresh, st.currentVersion.lookup name = some fresh → fresh ∉ st.currentVersion) :
    followEntries mk (order.versions st.currentVersion.entries) v =
      if v.sort = sort then ⟨(st.currentVersion.lookup v.name).getD v.name, v.sort⟩ else v := by
  have hinjective : Function.Injective mk := fun name name' heq ↦ by
    rw [hmk, hmk] at heq
    exact congrArg Var.name heq
  split_ifs with hsort
  · have hv : mk v.name = v := by rw [hmk, ← hsort]
    cases hlookup : st.currentVersion.lookup v.name with
    | none =>
      refine followEntries_of_forall_ne fun entry hentry heq ↦ ?_
      have hkey : v.name ∈ st.currentVersion :=
        (PathState.keys_versions order _).1
          (hinjective (hv.trans heq) ▸ List.mem_map_of_mem hentry)
      exact AList.lookup_eq_none.1 hlookup hkey
    | some fresh =>
      have hmem : ⟨v.name, fresh⟩ ∈ order.versions st.currentVersion.entries :=
        (order.versions_perm _).mem_iff.2 (AList.mem_lookup_iff.1 hlookup)
      have hfollow := followEntries_of_mem hinjective (PathState.nodup_versions order _) hmem
        (mt (PathState.keys_versions order _).1 (hchain _ _ hlookup))
      rw [hv, hmk, ← hsort] at hfollow
      exact hfollow
  · refine followEntries_of_forall_ne fun entry _ heq ↦ hsort ?_
    rw [heq, hmk]

theorem Use.translated_eq (use : Use)
    (hchain : ∀ name fresh, st.currentVersion.lookup name = some fresh → fresh ∉ st.currentVersion) :
    use.translated order st = if use.IsRenamed then
      ⟨(st.currentVersion.lookup use.var.name).getD use.var.name, use.var.sort⟩ else use.var := by
  cases use with
  | atom v => exact followEntries_eq (fun _ ↦ rfl) hchain
  | term v => exact followEntries_eq (fun _ ↦ rfl) hchain
  | coerced v => rfl

end Follow

/-! ### What a definition does to the maps -/

namespace PathState

variable {st : PathState} {place : Place} {target : Var}

theorem defined_versionVar : (st.versionVar place target).defined =
    insert (st.versioned place target).name st.defined := by
  rw [versionVar, versioned]
  split_ifs <;> rfl

theorem lookup_versionVar_self :
    (st.versionVar place target).currentVersion.lookup target.name =
      if st.FirstDefinition place target.name then none
      else some (place.freshName target.name) := by
  rw [versionVar]
  split_ifs
  · exact AList.lookup_erase _ _
  · exact AList.lookup_insert _

theorem lookup_versionVar_of_ne {name : String} (h : name ≠ target.name) :
    (st.versionVar place target).currentVersion.lookup name =
      st.currentVersion.lookup name := by
  rw [versionVar]
  split_ifs
  · exact AList.lookup_erase_ne h
  · exact AList.lookup_insert_ne h

end PathState

/-- The uses on the way are of names of the program. -/
def UsesNames (names : String → Prop) (items : List WalkItem) : Prop :=
  ∀ item ∈ items, ∀ use ∈ item.effect.uses, names use.var.name

/-! ### The maps and the definitions -/

/-- The maps of the walk say what the definitions so far say. -/
structure VersionsAgree (names : String → Prop) (st : PathState) (past : List Var)
    (latest : Var → Var) (earlier : List Definition) : Prop where
  defined : ∀ name, names name → (name ∈ st.defined ↔
    ∃ d ∈ earlier, d.assigned ∧ d.target.name = name ∧ d.place.visitCount = 1)
  current : ∀ name, st.currentVersion.lookup name =
    (renamedPlace (fun d ↦ d.assigned ∧ d.target.name = name) earlier).map (·.freshName name)
  latest : ∀ v, latest v = versionAt (renamedPlace (·.target = v) earlier) v
  past : past = (versions (history earlier)).map (·.2)
  original : ∀ d ∈ earlier, names d.target.name
  fresh : ∀ x ∈ renamed (history earlier), ¬ names (x.1.freshName x.2)

namespace VersionsAgree

variable {names : String → Prop} {st st' : PathState} {past : List Var} {latest : Var → Var}
  {earlier : List Definition} {order : HashOrder} {d : Definition} {v : Var}

theorem start (names : String → Prop) (phi1 : Formula) :
    VersionsAgree names (.start phi1) [] id [] where
  defined name _ := by simp [PathState.start]
  current _ := rfl
  latest _ := rfl
  past := rfl
  original d hd := absurd hd List.not_mem_nil
  fresh x hx := absurd hx List.not_mem_nil

theorem firstDefinition_iff (h : VersionsAgree names st past latest earlier)
    (hname : names d.target.name) (hassigned : d.assigned) :
    st.FirstDefinition d.place d.target.name ↔ d.Keeps earlier := by
  rw [PathState.FirstDefinition, Definition.Keeps, imp_iff_right hassigned, h.defined _ hname]
  refine and_congr_right fun _ ↦ ?_
  push Not
  rfl

theorem boundTo_eq (h : VersionsAgree names st past latest earlier)
    (hname : names d.target.name) : st.boundTo d = d.version earlier := by
  rw [PathState.boundTo]
  split_ifs with hassigned
  · exact if_congr (h.firstDefinition_iff hname hassigned) rfl rfl
  · exact (Definition.version_of_keeps fun h ↦ absurd h hassigned).symm

/-- A definition adds itself, whatever else it does, if it does this to the maps. -/
theorem add (h : VersionsAgree names st past latest earlier) (hname : names d.target.name)
    (hfresh : ¬ d.Keeps earlier → ¬ names (d.place.freshName d.target.name))
    (hdefined : ∀ name, names name → (name ∈ st'.defined ↔
      (d.assigned ∧ d.target.name = name ∧ d.place.visitCount = 1) ∨ name ∈ st.defined))
    (hcurrent : ∀ name, st'.currentVersion.lookup name =
      if d.assigned ∧ d.target.name = name then
        if d.Keeps earlier then none else some (d.place.freshName name)
      else st.currentVersion.lookup name) :
    VersionsAgree names st' (st.boundTo d :: past)
      (Function.update latest d.target (st.boundTo d)) (d :: earlier) where
  defined name hn := by
    rw [hdefined name hn, h.defined name hn, List.exists_mem_cons_iff]
  current name := by
    rw [hcurrent, renamedPlace, h.current, apply_ite (Option.map _), apply_ite (Option.map _)]
    rfl
  latest v := by
    rw [h.boundTo_eq hname, renamedPlace]
    by_cases hv : v = d.target
    · subst hv
      rw [Function.update_self, if_pos rfl, Definition.version]
      split_ifs <;> rfl
    · rw [Function.update_of_ne hv, if_neg (Ne.symm hv), h.latest v]
  past := by
    rw [h.boundTo_eq hname, h.past]
    rfl
  original := List.forall_mem_cons.2 ⟨hname, h.original⟩
  fresh := by
    rw [history]
    by_cases hkeeps : d.Keeps earlier
    · rw [renamed_cons_of_keeps hkeeps]
      exact h.fresh
    · rw [renamed_cons_of_not_keeps hkeeps]
      exact List.forall_mem_cons.2 ⟨hfresh hkeeps, h.fresh⟩

/-- What an assignment does to the maps. -/
theorem assign (h : VersionsAgree names st past latest earlier) (hname : names d.target.name)
    (hfresh : ¬ d.Keeps earlier → ¬ names (d.place.freshName d.target.name))
    (hassigned : d.assigned) (φ : Formula) :
    VersionsAgree names ((st.versionVar d.place d.target).conjoin φ) (st.boundTo d :: past)
      (Function.update latest d.target (st.boundTo d)) (d :: earlier) := by
  have hfirst := h.firstDefinition_iff hname hassigned
  refine h.add hname hfresh (fun name hn ↦ ?_) fun name ↦ ?_
  · show name ∈ (st.versionVar d.place d.target).defined ↔ _
    have hversion : (st.versioned d.place d.target).name = (d.version earlier).name :=
      congrArg Var.name (if_congr hfirst rfl rfl)
    rw [PathState.defined_versionVar, hversion, Finset.mem_insert, h.defined name hn]
    by_cases hkeeps : d.Keeps earlier
    · rw [Definition.version_of_keeps hkeeps, eq_comm, and_iff_right hassigned,
        and_iff_left (hkeeps hassigned).1]
    · have hne : name ≠ d.place.freshName d.target.name := fun heq ↦ hfresh hkeeps (heq ▸ hn)
      rw [Definition.version_of_not_keeps hkeeps, or_iff_right hne, iff_comm,
        or_iff_right_iff_imp]
      intro hfirstVisit
      obtain ⟨-, rfl, hvisit⟩ := hfirstVisit
      rw [Definition.Keeps, imp_iff_right hassigned, not_and] at hkeeps
      have hearlier := hkeeps hvisit
      push Not at hearlier
      exact hearlier
  · show (st.versionVar d.place d.target).currentVersion.lookup name = _
    by_cases hn : d.target.name = name
    · subst hn
      rw [PathState.lookup_versionVar_self]
      exact (if_congr hfirst rfl rfl).trans (if_pos ⟨hassigned, rfl⟩).symm
    · rw [PathState.lookup_versionVar_of_ne (Ne.symm hn), if_neg fun h ↦ hn h.2]

variable {item : WalkItem} {items : List WalkItem}

/-- An item keeps the maps and the definitions in agreement. -/
theorem step (h : VersionsAgree names st past latest earlier)
    (hnames : ∀ d ∈ item.definition?, names d.target.name) (hfresh : FreshItem names earlier item) :
    VersionsAgree names (applyPathEffect order item.place st item.effect)
      ((item.definition?.map st.boundTo).toList ++ past)
      (item.definition?.elim latest fun d ↦ Function.update latest d.target (st.boundTo d))
      (item.definition?.toList ++ earlier) := by
  obtain ⟨place, e⟩ := item
  cases e with
  | assign target value =>
    have hassign := h.assign (hnames ⟨place, target, true⟩ rfl) (hfresh ⟨place, target, true⟩ rfl)
      rfl
    cases value <;> exact hassign _
  | load target source | ptrToInt target source =>
    have hunassigned : ¬ (⟨place, target, false⟩ : Definition).assigned := Bool.false_ne_true
    refine h.add (hnames ⟨place, target, false⟩ rfl) (hfresh ⟨place, target, false⟩ rfl)
      (fun name _ ↦ ?_) fun name ↦ ?_
    · exact (or_iff_right fun h ↦ hunassigned h.1).symm
    · exact (if_neg fun h ↦ hunassigned h.1).symm
  | assume c | obligation c | typeBound c | memoryStore region offset value =>
    exact ⟨h.defined, h.current, h.latest, h.past, h.original, h.fresh⟩
  | _ => exact h

/-! ### The variables of the definitions -/

theorem boundTo_ne_iff (h : VersionsAgree names st past latest earlier)
    (hname : names d.target.name) : st.boundTo d ≠ d.target ↔ ¬ d.Keeps earlier := by
  rw [h.boundTo_eq hname]
  by_cases hkeeps : d.Keeps earlier
  · exact iff_of_false (not_not_intro (d.version_of_keeps hkeeps)) (not_not_intro hkeeps)
  · refine iff_of_true (fun heq ↦ d.place.freshName_ne d.target.name ?_) hkeeps
    rw [Definition.version_of_not_keeps hkeeps] at heq
    exact congrArg Var.name heq

theorem forall_mem_minted_cons :
    (∀ name ∈ minted order (item :: items) st, ¬ names name) ↔
      (∀ d ∈ item.definition?, st.boundTo d ≠ d.target → ¬ names (st.boundTo d).name) ∧
        ∀ name ∈ minted order items (applyPathEffect order item.place st item.effect),
          ¬ names name := by
  rw [minted, bound, List.filter_append, List.map_append, List.forall_mem_append]
  refine and_congr_left fun _ ↦ ?_
  cases item.definition? with
  | none => simp
  | some d => by_cases hd : st.boundTo d = d.target <;> simp [hd]

/-- The names that are made on the way are those of the renamed definitions, as long as they are no
names of the program. -/
theorem fresh_iff (h : VersionsAgree names st past latest earlier)
    (hnames : DefinesNames names items) :
    (∀ name ∈ minted order items st, ¬ names name) ↔
      ∀ x ∈ renamed (definitionsFrom items earlier), ¬ names (x.1.freshName x.2) := by
  induction items generalizing st past latest earlier with
  | nil =>
    have hnil {α : Type} {p : α → Prop} : ∀ x ∈ ([] : List α), p x :=
      fun _ h ↦ absurd h List.not_mem_nil
    exact iff_of_true hnil hnil
  | cons item items ih =>
    obtain ⟨hitem, hitems⟩ := List.forall_mem_cons.1 hnames
    rw [forall_mem_minted_cons, forall_mem_renamed_cons]
    have hhead : (∀ d ∈ item.definition?, st.boundTo d ≠ d.target →
        ¬ names (st.boundTo d).name) ↔ FreshItem names earlier item := by
      refine forall₂_congr fun d hd ↦ ?_
      rw [h.boundTo_ne_iff (hitem d hd)]
      refine forall_congr' fun hkeeps ↦ ?_
      rw [h.boundTo_eq (hitem d hd), Definition.version_of_not_keeps hkeeps]
    rw [hhead]
    exact and_congr_right fun hfresh ↦ ih (h.step hitem hfresh) hitems

/-- The variables that stand for the values of the definitions, read off the definitions. -/
theorem bound_eq (h : VersionsAgree names st past latest earlier)
    (hnames : DefinesNames names items)
    (hfresh : ∀ x ∈ renamed (definitionsFrom items earlier), ¬ names (x.1.freshName x.2)) :
    bound order items st = versions (definitionsFrom items earlier) := by
  induction items generalizing st past latest earlier with
  | nil => rfl
  | cons item items ih =>
    obtain ⟨hitem, hitems⟩ := List.forall_mem_cons.1 hnames
    obtain ⟨hfreshItem, hfresh⟩ := forall_mem_renamed_cons.1 hfresh
    rw [bound, definitionsFrom, versions_append, ih (h.step hitem hfreshItem) hitems hfresh]
    refine congrArg (· ++ _) ?_
    cases hdef : item.definition? with
    | none => rfl
    | some d =>
      show [(d, st.boundTo d)] = [(d, d.version earlier)]
      rw [h.boundTo_eq (hitem d hdef)]

/-! ### What the uses refer to -/

theorem not_chained (h : VersionsAgree names st past latest earlier) {name fresh : String}
    (hlookup : st.currentVersion.lookup name = some fresh) : fresh ∉ st.currentVersion := by
  rw [h.current, Option.map_eq_some_iff] at hlookup
  obtain ⟨place, hplace, rfl⟩ := hlookup
  obtain ⟨d, -, hd, hmem⟩ := exists_of_renamedPlace hplace
  intro hkey
  obtain ⟨fresh, hfresh⟩ := Option.isSome_iff_exists.1 (AList.lookup_isSome.2 hkey)
  rw [h.current, Option.map_eq_some_iff] at hfresh
  obtain ⟨place', hplace', -⟩ := hfresh
  obtain ⟨d', hd', hname, -⟩ := exists_of_renamedPlace hplace'
  have horiginal := h.original d' hd'
  rw [hname.2, ← hd.2] at horiginal
  exact h.fresh _ hmem horiginal

/-- A use is translated to the version that its name has, if the walk looks for one. -/
theorem translated_eq (h : VersionsAgree names st past latest earlier) (use : Use) :
    use.translated order st = versionAt (if use.IsRenamed then
      renamedPlace (fun d ↦ d.assigned ∧ d.target.name = use.var.name) earlier else none)
        use.var := by
  rw [use.translated_eq fun _ _ ↦ h.not_chained, h.current]
  split_ifs
  · cases renamedPlace (fun d ↦ d.assigned ∧ d.target.name = use.var.name) earlier <;> rfl
  · rfl

/-- A use refers to its latest definition just if it is settled. -/
theorem use_iff (h : VersionsAgree names st past latest earlier) (hnames : DefinesNames names items)
    (hfresh : ∀ x ∈ renamed (definitionsFrom items earlier), ¬ names (x.1.freshName x.2))
    (hapart : (renamed (history earlier ++ definitionsFrom items earlier)).Nodup) {use : Use}
    (huse : names use.var.name) :
    (use.RefersTo order st (latest use.var) ∧ past.count (latest use.var) ≤ 1 ∧
      latest use.var ∉ (bound order items st).map (·.2)) ↔ use.Settled items earlier := by
  have hfreshAll : ∀ x ∈ renamed (history earlier ++ definitionsFrom items earlier),
      ¬ names (x.1.freshName x.2) := by
    rw [renamed_append]
    exact List.forall_mem_append.2 ⟨h.fresh, hfresh⟩
  have hsole := versionAt_sole_iff huse hnames h.original hfreshAll hapart
  rw [refersTo_iff, h.translated_eq, h.latest, h.past, h.bound_eq hnames hfresh, hsole]
  constructor
  · intro hlatest
    exact ⟨versionAt_inj hlatest.1, hlatest.2⟩
  · intro hsettled
    exact ⟨congrArg (versionAt · use.var) hsettled.found, hsettled.sole⟩

/-- Every use refers to its latest definition just if all are settled. -/
theorem usesLatest_iff (h : VersionsAgree names st past latest earlier)
    (hnames : DefinesNames names items) (huses : UsesNames names items)
    (hfresh : ∀ x ∈ renamed (definitionsFrom items earlier), ¬ names (x.1.freshName x.2))
    (hapart : (renamed (history earlier ++ definitionsFrom items earlier)).Nodup) :
    UsesLatest order items st past latest ↔ UsesSettled items earlier := by
  induction items generalizing st past latest earlier with
  | nil => exact Iff.rfl
  | cons item items ih =>
    obtain ⟨hitem, hitems⟩ := List.forall_mem_cons.1 hnames
    obtain ⟨huse, huses⟩ := List.forall_mem_cons.1 huses
    obtain ⟨hfreshItem, hfreshItems⟩ := forall_mem_renamed_cons.1 hfresh
    -- the definition of the item goes from those to come to the past ones
    have hperm : (history (item.definition?.toList ++ earlier) ++
        definitionsFrom items (item.definition?.toList ++ earlier)).Perm
          (history earlier ++ definitionsFrom (item :: items) earlier) := by
      rw [history_append, definitionsFrom, ← List.append_assoc]
      exact List.perm_append_comm.append_right _
    have hapartItems : (renamed (history (item.definition?.toList ++ earlier) ++
        definitionsFrom items (item.definition?.toList ++ earlier))).Nodup :=
      ((hperm.filter _).map _).nodup_iff.2 hapart
    rw [UsesLatest, UsesSettled]
    exact and_congr
      (forall₂_congr fun use hmem ↦ h.use_iff hnames hfresh hapart (huse use hmem))
      (ih (h.step hitem hfreshItem) hitems huses hfreshItems hapartItems)

end VersionsAgree

theorem wellVersioned_iff_separated {names : String → Prop} {items : List WalkItem}
    {order : HashOrder} (phi1 : Formula) (hnames : DefinesNames names items)
    (huses : UsesNames names items) :
    WellVersioned order phi1 names items ↔ Separated names items := by
  have hstart := VersionsAgree.start names phi1
  have hgiven (hfresh : ∀ x ∈ renamed (definitionsFrom items []), ¬ names (x.1.freshName x.2)) :
      (given order items (.start phi1)).Nodup ↔ (renamed (definitionsFrom items [])).Nodup := by
    rw [given, hstart.bound_eq hnames hfresh]
    exact nodup_names_iff hnames hfresh
  constructor
  · intro h
    have hfresh := (hstart.fresh_iff hnames).1 h.fresh
    have hapart := (hgiven hfresh).1 h.distinct
    exact ⟨hapart, hfresh, (hstart.usesLatest_iff hnames huses hfresh hapart).1 h.latest⟩
  · intro h
    exact ⟨(hgiven h.fresh).2 h.apart, (hstart.fresh_iff hnames).2 h.fresh,
      (hstart.usesLatest_iff hnames huses h.fresh h.apart).2 h.settled⟩

/-! ### Paths of a graph -/

section Graph

variable {cfg : AbstractCfg} {path : List CfgEdgeId} {counts : CfgNodeId → ℕ}

/-- What a path meets is an effect of a node, an effect of an edge or a guard. -/
theorem forall_mem_pathItems {p : TransferEffect → Prop}
    (hnode : ∀ n, ∀ e ∈ (cfg.transferAt n).effects, p e)
    (hedge : ∀ edge ∈ cfg.edges, ∀ e ∈ edge.effects, p e)
    (hguard : ∀ edge ∈ cfg.edges, p (.assume edge.guard)) :
    ∀ item ∈ pathItems cfg counts path, p item.effect := by
  induction path generalizing counts with
  | nil => exact fun _ hitem ↦ absurd hitem List.not_mem_nil
  | cons id path ih =>
    rw [pathItems]
    cases hid : cfg.edge id with
    | error e => exact ih
    | ok edge =>
      obtain ⟨hmem, -⟩ := AbstractCfg.mem_of_edge_eq_ok hid
      refine List.forall_mem_append.2 ⟨?_, ih⟩
      rw [edgeItems, List.forall_mem_append, List.forall_mem_cons, List.forall_mem_map,
        List.forall_mem_map]
      exact ⟨hnode edge.source, hguard edge hmem, hedge edge hmem⟩

theorem names_of_mem_pathItems : ∀ item ∈ pathItems cfg counts path,
    ∀ v ∈ item.effect.mentioned, cfg.Names v.name := by
  refine forall_mem_pathItems (p := fun e ↦ ∀ v ∈ e.mentioned, cfg.Names v.name)
    (fun n e he v hv ↦ ⟨v, rfl, .inl ⟨n, e, he, hv⟩⟩)
    (fun edge hedge e he v hv ↦ ⟨v, rfl, .inr ⟨edge, hedge, .inl ⟨e, he, hv⟩⟩⟩)
    fun edge hedge v hv ↦ ⟨v, rfl, .inr ⟨edge, hedge, .inr ?_⟩⟩
  simpa [TransferEffect.mentioned, TransferEffect.target?, TransferEffect.uses] using hv

theorem definesNames_pathItems : DefinesNames cfg.Names (pathItems cfg counts path) := by
  intro item hitem d hd
  rw [Option.mem_def, WalkItem.definition?, Option.map_eq_some_iff] at hd
  obtain ⟨target, htarget, rfl⟩ := hd
  refine names_of_mem_pathItems item hitem target ?_
  simp [TransferEffect.mentioned, htarget]

theorem usesNames_pathItems : UsesNames cfg.Names (pathItems cfg counts path) := by
  intro item hitem use huse
  refine names_of_mem_pathItems item hitem use.var ?_
  simp only [TransferEffect.mentioned, List.mem_append]
  exact .inl (.inr (List.mem_map_of_mem huse))

/-- On a path of a graph, the names of the definitions are distinct, the names that are made are none
of the graph, and every use refers to its latest definition just if the definitions on the path are
separated. The walk meets the effects and guards in the order of `pathItems`
(`computePathConditionWithState_eq`). -/
theorem wellVersioned_iff (order : HashOrder) (cfg : AbstractCfg) (path : List CfgEdgeId)
    (phi1 : Formula) :
    WellVersioned order phi1 cfg.Names (pathItems cfg (fun _ ↦ 0) path) ↔
      Separated cfg.Names (pathItems cfg (fun _ ↦ 0) path) :=
  wellVersioned_iff_separated phi1 definesNames_pathItems usesNames_pathItems

/-- A block that defines one variable three times. -/
def threeDefinitionsCfg : AbstractCfg where
  nodes := [⟨0, "entry", .entry, ⟨[.assign (.int "x") (.term (.int 1)),
      .assign (.int "x") (.term (.int 2)), .assign (.int "x") (.term (.int 3))]⟩⟩,
    ⟨1, "exit", .exit, .identity⟩]
  edges := [⟨0, 0, 1, .tru, []⟩]
  entry := 0
  concreteExits := [1]
  exit := some 1
  nextNode := 2
  nextEdge := 1
  nodes_sorted := by simp
  edges_sorted := AbstractCfg.edges_sorted_single
  node_lt := by decide
  edge_lt := AbstractCfg.edge_lt_single
  entry_mem := by simp
  source_mem := by simp
  target_mem := by simp

/-- The second and the third definition are both called `x$n0v1`: the walk asks for a value that is
`2` and `3`. -/
theorem not_wellVersioned :
    ¬ ∀ (order : HashOrder) (cfg : AbstractCfg) (path : List CfgEdgeId) (phi1 : Formula),
      WellVersioned order phi1 cfg.Names (pathItems cfg (fun _ ↦ 0) path) := by
  intro h
  have hdistinct := (h .stored threeDefinitionsCfg [0] .tru).distinct
  have hgiven : given .stored (pathItems threeDefinitionsCfg (fun _ ↦ 0) [0])
      (.start .tru) = ["x", "x$n0v1", "x$n0v1"] := by
    decide
  rw [hgiven] at hdistinct
  exact absurd hdistinct (by decide)

end Graph

end MayMust
