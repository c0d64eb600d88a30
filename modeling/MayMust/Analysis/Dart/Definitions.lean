import MayMust.Analysis.Dart.Explore
import MayMust.Library.Names

/-!
# The definitions on a path

Assignments, loads that could not be resolved and pointer-to-integer conversions define a variable.
Which variable of the path condition stands for the value depends on the definitions before and on
where they stand (`Definition.version`): an assignment keeps the name if it is the first one of its
name and its node is visited for the first time, and is renamed after its node and visit otherwise;
the other definitions leave their variable unbound, under its own name.

Two facts about names are all that is needed. A fresh name tells the name, the node and the visit it
was made of (`Place.freshName_inj`), so the names of the assignments on a path are distinct just if
no two renamed definitions of one name stand at one place (`nodup_names_iff`). And the variable of a
definition goes to no other one just if this is no other definition that keeps the name
(`versionAt_sole_iff`).
-/

namespace MayMust

open Library

/-! ### Where the definitions stand -/

/-- The variable that an effect defines. -/
def TransferEffect.target? : TransferEffect → Option Var
  | assign target _ | load target _ | ptrToInt target _ => some target
  | _ => none

/-- The effects that call `version_var`. -/
def TransferEffect.isAssign : TransferEffect → Bool
  | assign .. => true
  | _ => false

/-- A definition on a path: where it stands, and whether it is an assignment. -/
structure Definition where
  place : Place
  target : Var
  assigned : Bool

/-- The definition of an item. -/
def WalkItem.definition? (item : WalkItem) : Option Definition :=
  item.effect.target?.map (⟨item.place, ·, item.effect.isAssign⟩)

namespace Definition

/-- The first assignment to a name, on a first visit, keeps it, and so does what is no assignment.
The earlier definitions are given, the last one first. -/
def Keeps (earlier : List Definition) (d : Definition) : Prop :=
  d.assigned → d.place.visitCount = 1 ∧
    ∀ d' ∈ earlier, d'.assigned → d'.target.name = d.target.name → d'.place.visitCount ≠ 1

instance (earlier : List Definition) (d : Definition) : Decidable (d.Keeps earlier) :=
  inferInstanceAs (Decidable (_ → _ ∧ _))

/-- The variable that stands for the value. -/
def version (earlier : List Definition) (d : Definition) : Var :=
  if d.Keeps earlier then d.target else ⟨d.place.freshName d.target.name, d.target.sort⟩

end Definition

/-- The definitions on the way, each with those before it. -/
def definitionsFrom : List WalkItem → List Definition → List (Definition × List Definition)
  | [], _ => []
  | item :: items, earlier =>
    (item.definition?.map (·, earlier)).toList ++
      definitionsFrom items (item.definition?.toList ++ earlier)

/-- The earlier definitions, each with those before it. -/
def history : List Definition → List (Definition × List Definition)
  | [] => []
  | d :: earlier => (d, earlier) :: history earlier

/-- The renamed definitions: where they stand and of which name. -/
def renamed (ds : List (Definition × List Definition)) : List (Place × String) :=
  (ds.filter fun x ↦ ¬ x.1.Keeps x.2).map fun x ↦ (x.1.place, x.1.target.name)

/-- The variables that keep their names. -/
def kept (ds : List (Definition × List Definition)) : List Var :=
  (ds.filter fun x ↦ x.1.Keeps x.2).map (·.1.target)

/-- The definitions and the variables that stand for their values. -/
def versions (ds : List (Definition × List Definition)) : List (Definition × Var) :=
  ds.map fun x ↦ (x.1, x.1.version x.2)

/-- Where the last definition with the property stands, if it is renamed. -/
def renamedPlace (p : Definition → Prop) [DecidablePred p] : List Definition → Option Place
  | [] => none
  | d :: earlier =>
    if p d then if d.Keeps earlier then none else some d.place else renamedPlace p earlier

/-- The variable that a definition at the place gets, or the variable itself. -/
def versionAt (place : Option Place) (v : Var) : Var :=
  place.elim v fun place ↦ ⟨place.freshName v.name, v.sort⟩

/-! ### Fresh names -/

/-- A fresh name tells the definition it was made for. -/
theorem Place.freshName_inj {place place' : Place} {orig orig' : String}
    (h : place.freshName orig = place'.freshName orig') : place = place' ∧ orig = orig' := by
  obtain ⟨node, visitCount⟩ := place
  obtain ⟨node', visitCount'⟩ := place'
  obtain ⟨hnode, rfl⟩ := append_toString_inj (c := 'v') rfl rfl h
  have hsplit (s : String) (k : ℕ) : s ++ "$n" ++ toString k = s ++ "$" ++ "n" ++ toString k := by
    rw [show "$n" = "$" ++ "n" from rfl, ← String.append_assoc]
  have hnode' : orig ++ "$" ++ "n" ++ toString node = orig' ++ "$" ++ "n" ++ toString node' := by
    rw [← hsplit, ← hsplit]
    exact hnode
  obtain ⟨horig, rfl⟩ := append_toString_inj (c := 'n') rfl rfl hnode'
  exact ⟨rfl, (String.append_left_inj "$").1 horig⟩

theorem Place.freshName_ne (place : Place) (orig : String) : place.freshName orig ≠ orig := by
  intro h
  have hlength := congrArg String.length h
  simp only [Place.freshName, String.length_append] at hlength
  have : "$n".length = 2 := rfl
  omega

theorem versionAt_inj {place place' : Option Place} {v : Var}
    (h : versionAt place v = versionAt place' v) : place = place' := by
  have hname := congrArg Var.name h
  cases place with
  | none =>
    cases place' with
    | none => rfl
    | some place' => exact absurd hname.symm (place'.freshName_ne _)
  | some place =>
    cases place' with
    | none => exact absurd hname (place.freshName_ne _)
    | some place' => exact congrArg some (Place.freshName_inj hname).1

/-! ### Kept and renamed definitions -/

section Names

variable {names : String → Prop} {ds ds' : List (Definition × List Definition)}
  {earlier : List Definition} {item : WalkItem} {items : List WalkItem} {d : Definition} {v : Var}

theorem Definition.version_of_keeps (h : d.Keeps earlier) : d.version earlier = d.target :=
  if_pos h

theorem Definition.version_of_not_keeps (h : ¬ d.Keeps earlier) :
    d.version earlier = ⟨d.place.freshName d.target.name, d.target.sort⟩ :=
  if_neg h

@[simp] theorem renamed_append : renamed (ds ++ ds') = renamed ds ++ renamed ds' := by
  simp [renamed]

@[simp] theorem versions_append : versions (ds ++ ds') = versions ds ++ versions ds' :=
  List.map_append

theorem renamed_cons_of_keeps (h : d.Keeps earlier) :
    renamed ((d, earlier) :: ds) = renamed ds := by
  simp [renamed, h]

theorem renamed_cons_of_not_keeps (h : ¬ d.Keeps earlier) :
    renamed ((d, earlier) :: ds) = (d.place, d.target.name) :: renamed ds := by
  simp [renamed, h]

/-- The earlier definitions and an item's own. -/
theorem history_append (item : WalkItem) (earlier : List Definition) :
    history (item.definition?.toList ++ earlier) =
      (item.definition?.map (·, earlier)).toList ++ history earlier := by
  cases item.definition? with
  | none => rfl
  | some d => rfl

/-- A place that is found belongs to a renamed definition. -/
theorem exists_of_renamedPlace {p : Definition → Prop} [DecidablePred p] {place : Place}
    (h : renamedPlace p earlier = some place) :
    ∃ d ∈ earlier, p d ∧ (place, d.target.name) ∈ renamed (history earlier) := by
  induction earlier with
  | nil => cases h
  | cons d earlier ih =>
    rw [renamedPlace] at h
    have hlater (h : renamedPlace p earlier = some place) : ∃ d' ∈ d :: earlier, p d' ∧
        (place, d'.target.name) ∈ renamed (history (d :: earlier)) := by
      obtain ⟨d', hd', hp, hmem⟩ := ih h
      refine ⟨d', List.mem_cons_of_mem _ hd', hp, ?_⟩
      rw [history, ← List.singleton_append, renamed_append]
      exact List.mem_append_right _ hmem
    split_ifs at h with hp hkeeps
    · refine ⟨d, List.mem_cons_self, hp, ?_⟩
      rw [history, renamed_cons_of_not_keeps hkeeps, Option.some.inj h]
      exact List.mem_cons_self
    · exact hlater h

/-! ### The definitions of a list of items -/

/-- The definitions on the way are of names of the program. -/
def DefinesNames (names : String → Prop) (items : List WalkItem) : Prop :=
  ∀ item ∈ items, ∀ d ∈ item.definition?, names d.target.name

theorem mem_definitionsFrom {x : Definition × List Definition}
    (h : x ∈ definitionsFrom items earlier) :
    (∃ item ∈ items, x.1 ∈ item.definition?) ∧ ∀ d ∈ earlier, d ∈ x.2 := by
  induction items generalizing earlier with
  | nil => exact absurd h List.not_mem_nil
  | cons item items ih =>
    rw [definitionsFrom] at h
    obtain hhead | htail := List.mem_append.1 h
    · rw [Option.mem_toList, Option.map_eq_some_iff] at hhead
      obtain ⟨d, hd, rfl⟩ := hhead
      exact ⟨⟨item, List.mem_cons_self, hd⟩, fun _ hd' ↦ hd'⟩
    · obtain ⟨⟨item', hitem', hx⟩, hearlier⟩ := ih htail
      exact ⟨⟨item', List.mem_cons_of_mem _ hitem', hx⟩,
        fun d hd ↦ hearlier d (List.mem_append_right _ hd)⟩

theorem DefinesNames.target (h : DefinesNames names items) (earlier : List Definition) :
    ∀ x ∈ definitionsFrom items earlier, names x.1.target.name := by
  intro x hx
  obtain ⟨⟨item, hitem, hd⟩, -⟩ := mem_definitionsFrom hx
  exact h item hitem x.1 hd

theorem fst_mem_of_mem_history {x : Definition × List Definition} (h : x ∈ history earlier) :
    x.1 ∈ earlier := by
  induction earlier with
  | nil => exact absurd h List.not_mem_nil
  | cons d earlier ih =>
    obtain rfl | h := List.mem_cons.1 h
    · exact List.mem_cons_self
    · exact List.mem_cons_of_mem _ (ih h)

/-- The name that the definition of an item would get is none of the program. -/
def FreshItem (names : String → Prop) (earlier : List Definition) (item : WalkItem) : Prop :=
  ∀ d ∈ item.definition?, ¬ d.Keeps earlier → ¬ names (d.place.freshName d.target.name)

theorem forall_mem_renamed_cons :
    (∀ x ∈ renamed (definitionsFrom (item :: items) earlier), ¬ names (x.1.freshName x.2)) ↔
      FreshItem names earlier item ∧
        ∀ x ∈ renamed (definitionsFrom items (item.definition?.toList ++ earlier)),
          ¬ names (x.1.freshName x.2) := by
  rw [definitionsFrom, renamed_append, List.forall_mem_append, FreshItem]
  refine and_congr_left fun _ ↦ ?_
  cases item.definition? with
  | none => simp [renamed]
  | some d => by_cases hkeeps : d.Keeps earlier <;> simp [renamed, hkeeps]

/-! ### Distinct names -/

/-- The names that assignments keep. -/
def keptNames (ds : List (Definition × List Definition)) : List String :=
  (ds.filter fun x ↦ x.1.assigned ∧ x.1.Keeps x.2).map (·.1.target.name)

theorem perm_names_versions (ds : List (Definition × List Definition)) :
    (((versions ds).filter (·.1.assigned)).map (·.2.name)).Perm
      (keptNames ds ++ (renamed ds).map fun x ↦ x.1.freshName x.2) := by
  induction ds with
  | nil => exact .refl _
  | cons x ds ih =>
    obtain ⟨d, earlier⟩ := x
    rw [versions, List.map_cons, keptNames]
    by_cases hkeeps : d.Keeps earlier
    · rw [renamed_cons_of_keeps hkeeps]
      cases hassigned : d.assigned with
      | false =>
        rw [List.filter_cons_of_neg (by simp [hassigned]),
          List.filter_cons_of_neg (by simp [hassigned])]
        exact ih
      | true =>
        rw [List.filter_cons_of_pos (by simp [hassigned]),
          List.filter_cons_of_pos (by simp [hassigned, hkeeps]), d.version_of_keeps hkeeps]
        exact ih.cons _
    · have hassigned : d.assigned := by
        by_contra h
        exact hkeeps fun hassigned ↦ absurd hassigned h
      rw [renamed_cons_of_not_keeps hkeeps, List.filter_cons_of_pos (by simp [hassigned]),
        List.filter_cons_of_neg (by simp [hkeeps]), d.version_of_not_keeps hkeeps]
      exact (ih.cons _).trans List.perm_middle.symm

theorem nodup_keptNames (items : List WalkItem) (earlier : List Definition) :
    (keptNames (definitionsFrom items earlier)).Nodup := by
  induction items generalizing earlier with
  | nil => exact List.nodup_nil
  | cons item items ih =>
    rw [definitionsFrom]
    cases hdef : item.definition? with
    | none => exact ih _
    | some d =>
      show (keptNames ((d, earlier) :: definitionsFrom items (d :: earlier))).Nodup
      rw [keptNames, List.filter_cons]
      split_ifs with hkept
      · obtain ⟨hassigned, hkeeps⟩ := of_decide_eq_true hkept
        refine List.nodup_cons.2 ⟨fun hmem ↦ ?_, ih _⟩
        obtain ⟨x, hx, hname⟩ := List.mem_map.1 hmem
        obtain ⟨hx, hxkept⟩ := List.mem_filter.1 hx
        obtain ⟨hxassigned, hxkeeps⟩ := of_decide_eq_true hxkept
        have hearlier := (mem_definitionsFrom hx).2 d List.mem_cons_self
        exact (hxkeeps hxassigned).2 d hearlier hassigned hname.symm (hkeeps hassigned).1
      · exact ih _

/-- The names of the assignments are distinct just if no two renamed definitions of one name stand at
one place. -/
theorem nodup_names_iff (hnames : DefinesNames names items)
    (hfresh : ∀ x ∈ renamed (definitionsFrom items earlier), ¬ names (x.1.freshName x.2)) :
    (((versions (definitionsFrom items earlier)).filter (·.1.assigned)).map (·.2.name)).Nodup ↔
      (renamed (definitionsFrom items earlier)).Nodup := by
  have hinjective : Function.Injective fun x : Place × String ↦ x.1.freshName x.2 :=
    fun x y h ↦ Prod.ext (Place.freshName_inj h).1 (Place.freshName_inj h).2
  rw [(perm_names_versions _).nodup_iff, List.nodup_append, List.nodup_map_iff hinjective,
    and_iff_right (nodup_keptNames items earlier), and_iff_left_iff_imp]
  intro _ name hname fresh hmem heq
  obtain ⟨x, hx, rfl⟩ := List.mem_map.1 hmem
  obtain ⟨y, hy, rfl⟩ := List.mem_map.1 hname
  exact hfresh x hx (heq ▸ hnames.target earlier y (List.mem_of_mem_filter hy))

/-! ### The variable of one definition -/

/-- A variable of the program stands for the definitions that keep its name. -/
theorem count_versions_of_names (hv : names v.name)
    (hfresh : ∀ x ∈ renamed ds, ¬ names (x.1.freshName x.2)) :
    ((versions ds).map (·.2)).count v = (kept ds).count v := by
  induction ds with
  | nil => rfl
  | cons x ds ih =>
    obtain ⟨d, earlier⟩ := x
    show (d.version earlier :: (versions ds).map (·.2)).count v = _
    by_cases hkeeps : d.Keeps earlier
    · rw [renamed_cons_of_keeps hkeeps] at hfresh
      have hkept : kept ((d, earlier) :: ds) = d.target :: kept ds := by simp [kept, hkeeps]
      rw [hkept, d.version_of_keeps hkeeps, List.count_cons, List.count_cons, ih hfresh]
    · rw [renamed_cons_of_not_keeps hkeeps, List.forall_mem_cons] at hfresh
      have hkept : kept ((d, earlier) :: ds) = kept ds := by simp [kept, hkeeps]
      have hne : d.version earlier ≠ v := by
        rw [d.version_of_not_keeps hkeeps]
        rintro rfl
        exact hfresh.1 hv
      rw [hkept, List.count_cons_of_ne hne, ih hfresh.2]

/-- A variable that is none of the program stands for the definitions it was made for. -/
theorem count_versions_le (hnames : ∀ x ∈ ds, names x.1.target.name) {place : Place}
    (hplace : ¬ names (place.freshName v.name)) :
    ((versions ds).map (·.2)).count ⟨place.freshName v.name, v.sort⟩ ≤
      (renamed ds).count (place, v.name) := by
  induction ds with
  | nil => exact le_refl 0
  | cons x ds ih =>
    obtain ⟨d, earlier⟩ := x
    obtain ⟨hname, hnames⟩ := List.forall_mem_cons.1 hnames
    show (d.version earlier :: (versions ds).map (·.2)).count _ ≤ _
    by_cases hkeeps : d.Keeps earlier
    · have hne : d.version earlier ≠ ⟨place.freshName v.name, v.sort⟩ := by
        rw [d.version_of_keeps hkeeps]
        intro heq
        rw [heq] at hname
        exact hplace hname
      rw [renamed_cons_of_keeps hkeeps, List.count_cons_of_ne hne]
      exact ih hnames
    · rw [renamed_cons_of_not_keeps hkeeps, d.version_of_not_keeps hkeeps]
      by_cases heq : d.place.freshName d.target.name = place.freshName v.name
      · obtain ⟨rfl, hname⟩ := Place.freshName_inj heq
        rw [hname, List.count_cons_self, List.count_cons]
        exact Nat.add_le_add (ih hnames) (by split_ifs <;> omega)
      · rw [List.count_cons_of_ne fun h ↦ heq (congrArg Var.name h)]
        exact (ih hnames).trans List.count_le_count_cons

/-- The variable that stands for the last definition of `v` stands for no other definition just if,
in case it is `v` itself, no other definition keeps this name. -/
theorem versionAt_sole_iff (hv : names v.name) (hitems : DefinesNames names items)
    (hearlier : ∀ d ∈ earlier, names d.target.name)
    (hfresh : ∀ x ∈ renamed (history earlier ++ definitionsFrom items earlier),
      ¬ names (x.1.freshName x.2))
    (hapart : (renamed (history earlier ++ definitionsFrom items earlier)).Nodup) :
    (((versions (history earlier)).map (·.2)).count
        (versionAt (renamedPlace (·.target = v) earlier) v) ≤ 1 ∧
      versionAt (renamedPlace (·.target = v) earlier) v ∉
        (versions (definitionsFrom items earlier)).map (·.2)) ↔
      (renamedPlace (·.target = v) earlier = none →
        (kept (history earlier)).count v ≤ 1 ∧ v ∉ kept (definitionsFrom items earlier)) := by
  rw [renamed_append] at hfresh hapart
  obtain ⟨hfreshEarlier, hfreshLater⟩ := List.forall_mem_append.1 hfresh
  cases hplace : renamedPlace (·.target = v) earlier with
  | none =>
    have hcount := count_versions_of_names hv hfreshEarlier
    have hcountLater := count_versions_of_names hv hfreshLater
    show (_ ≤ 1 ∧ v ∉ _) ↔ _
    rw [versionAt, Option.elim_none, hcount, ← List.count_eq_zero, hcountLater, List.count_eq_zero]
    exact (imp_iff_right rfl).symm
  | some place =>
    refine iff_of_true ?_ fun hnone ↦ nomatch hnone
    obtain ⟨d, -, rfl, hmem⟩ := exists_of_renamedPlace hplace
    have hnot := hfreshEarlier _ hmem
    have hle := count_versions_le (fun x hx ↦ hearlier x.1 (fst_mem_of_mem_history hx)) hnot
    have hleLater := count_versions_le (hitems.target earlier) hnot
    have hone := List.nodup_iff_count_le_one.1 (List.nodup_append.1 hapart).1 (place, d.target.name)
    have hnone := List.count_eq_zero.2 fun hx ↦ List.disjoint_of_nodup_append hapart hmem hx
    rw [hnone] at hleLater
    exact ⟨hle.trans hone, List.count_eq_zero.1 (Nat.le_zero.1 hleLater)⟩

end Names

end MayMust
