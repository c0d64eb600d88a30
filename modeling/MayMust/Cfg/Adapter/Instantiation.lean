import Mathlib.Tactic.SplitIfs
import MayMust.Cfg.Adapter.Arithmetic
import MayMust.Cfg.Adapter.ReturnSummary
import MayMust.Library.Names

/-!
# Instantiation of return summaries

`apply_pending_return_summaries` injects the relation of a callee at a call site, in three steps.
The variables of the callee are renamed: parameters whose actual is not an integer constant to the
actual, the return variable to the result, and all others into a namespace of the call site. Then
external regions are replaced by the caller's regions. At last the parameters whose actual is a
constant are replaced by the constant.

The last step comes too late: the first one has already renamed these parameters. What the
injected obligation says is right exactly when the relation reads no such parameter and reads
nothing under a name that the last step replaces (`instantiates_iff`).
-/

namespace MayMust

open Library

/-! ### The source -/

/-- The region a pointer points into, and its offset there. -/
structure PointerBinding where
  region : String
  offset : Term
  deriving DecidableEq

/-- The known pointers by name. -/
abbrev PointerEnv := String → Option PointerBinding

/-- `ext_region_name`. -/
def extRegionName (functionName : String) (index : ℕ) : String :=
  functionName ++ "$__ext_" ++ toString index

/-- The prefix of the names a call site introduces. -/
def localPrefix (functionName : String) (callSiteId : ℕ) : String :=
  functionName ++ "$call" ++ toString callSiteId

/-- `rename_callee_vars` on a name. -/
def renameCalleeName (mapping : String → Option String) (calleeName sitePrefix name : String) :
    String :=
  match mapping name with
  | some mapped => mapped
  | none =>
    match stripPrefix (calleeName ++ "$") name with
    | some suffix => sitePrefix ++ "$" ++ suffix
    | none => name

/-- `rename_callee_vars`. -/
def renameCalleeVars (φ : Formula) (mapping : String → Option String)
    (calleeName sitePrefix : String) :
    Formula :=
  renameFormulaUniform (renameCalleeName mapping calleeName sitePrefix) φ

/-- The leaves of `substitute_var_name_with_term`: variables of every sort are replaced, in term
positions only. -/
def LeafMap.replaceName (name : String) (replacement : Term) : LeafMap where
  boolVar := .var
  termVar v := if v.name = name then replacement else .var v
  region := .var

/-- `substitute_var_name_with_term`. -/
def substituteVarNameWithTerm (φ : Formula) (name : String) (replacement : Term) : Formula :=
  φ.rebuild (.replaceName name replacement)

/-- The caller's regions for the callee's external regions, in the order of their names. -/
abbrev RegionMap := List (String × String × Term)

namespace RegionMap

/-- Insert an entry, replacing the one of the same name. -/
def insert (key region : String) (base : Term) : RegionMap → RegionMap
  | [] => [(key, region, base)]
  | (k, entry) :: rest =>
    if key = k then (key, region, base) :: rest
    else if key < k then (key, region, base) :: (k, entry) :: rest
    else (k, entry) :: insert key region base rest

/-- The entry of a name. -/
def get? (m : RegionMap) (name : String) : Option (String × Term) :=
  (m.find? (·.1 = name)).map (·.2)

/-- The caller's region for a field of an external region. -/
def field? (m : RegionMap) (name : String) : Option String :=
  m.findSome? fun (key, region, _) ↦ do
    let suffix ← stripPrefix key name
    if suffix.toList.head? = some '$' then some (region ++ suffix) else none

end RegionMap

mutual

/-- `substitute_ext_regions_memory`. -/
def substituteExtRegionsMemory (m : RegionMap) : Memory → Memory
  | .var name =>
    match m.get? name with
    | some (region, _) => .var region
    | none => .var ((m.field? name).getD name)
  | .store inner index value =>
    .store (substituteExtRegionsMemory m inner) (substituteExtRegionsTerm m index)
      (substituteExtRegionsTerm m value)
termination_by structural mem => mem

/-- `substitute_ext_regions_term`: a read of an external region moves by the actual's offset, a read
of one of its fields does not. -/
def substituteExtRegionsTerm (m : RegionMap) : Term → Term
  | .var v => .var v
  | .int value => .int value
  | .real value => .real value
  | .boolToInt value => .boolToInt (substituteExtRegions m value)
  | .select (.var name) index =>
    match m.get? name with
    | some (region, base) => .select (.var region) (.add base (substituteExtRegionsTerm m index))
    | none => .select (.var ((m.field? name).getD name)) (substituteExtRegionsTerm m index)
  | .select (.store inner i v) index =>
    .select (.store (substituteExtRegionsMemory m inner) (substituteExtRegionsTerm m i)
      (substituteExtRegionsTerm m v)) (substituteExtRegionsTerm m index)
  | .add lhs rhs => .add (substituteExtRegionsTerm m lhs) (substituteExtRegionsTerm m rhs)
  | .sub lhs rhs => .sub (substituteExtRegionsTerm m lhs) (substituteExtRegionsTerm m rhs)
  | .mul lhs rhs => .mul (substituteExtRegionsTerm m lhs) (substituteExtRegionsTerm m rhs)
  | .div lhs rhs => .div (substituteExtRegionsTerm m lhs) (substituteExtRegionsTerm m rhs)
  | .rem lhs rhs => .rem (substituteExtRegionsTerm m lhs) (substituteExtRegionsTerm m rhs)
  | .neg inner => .neg (substituteExtRegionsTerm m inner)
termination_by structural t => t

/-- `substitute_ext_regions`. -/
def substituteExtRegions (m : RegionMap) : Formula → Formula
  | .tru => .tru
  | .fls => .fls
  | .var v => .var v
  | .not inner => .not (substituteExtRegions m inner)
  | .and items => Formula.andMany (substituteExtRegionsList m items)
  | .or items => Formula.orMany (substituteExtRegionsList m items)
  | .implies lhs rhs =>
    Formula.mkImplies (substituteExtRegions m lhs) (substituteExtRegions m rhs)
  | .eq lhs rhs => .eq (substituteExtRegionsTerm m lhs) (substituteExtRegionsTerm m rhs)
  | .memoryEq lhs rhs =>
    .memoryEq (substituteExtRegionsMemory m lhs) (substituteExtRegionsMemory m rhs)
  | .lt lhs rhs => .lt (substituteExtRegionsTerm m lhs) (substituteExtRegionsTerm m rhs)
  | .le lhs rhs => .le (substituteExtRegionsTerm m lhs) (substituteExtRegionsTerm m rhs)
  | .gt lhs rhs => .gt (substituteExtRegionsTerm m lhs) (substituteExtRegionsTerm m rhs)
  | .ge lhs rhs => .ge (substituteExtRegionsTerm m lhs) (substituteExtRegionsTerm m rhs)
termination_by structural φ => φ

/-- `substitute_ext_regions` on the items of a conjunction or a disjunction. -/
def substituteExtRegionsList (m : RegionMap) : List Formula → List Formula
  | [] => []
  | item :: rest => substituteExtRegions m item :: substituteExtRegionsList m rest
termination_by structural items => items

end

section Pipeline

variable (functionName : String) (summary : ReturnSummary) (actualArgs : List LlvmValue)
  (instruction : LlvmValue) (callSiteId : ℕ) (finalEnv : PointerEnv)

/-- Map a parameter to its actual, unless that is an integer constant. -/
def mapActual (mapping : String → Option String) (pair : String × LlvmValue) :
    String → Option String :=
  if pair.2.constantInt.isNone then
    Function.update mapping pair.1 (some (localName functionName pair.2))
  else mapping

/-- What the parameters and the return variable are renamed to. -/
def callMapping : String → Option String :=
  Function.update
    ((summary.formalParameters.zip actualArgs).foldl (mapActual functionName) fun _ ↦ none)
    summary.retvalName (some (localName functionName instruction))

/-- Map the external region of a pointer parameter to the region its actual points into. -/
def mapRegion (m : RegionMap) (arg : LlvmValue × ℕ) : RegionMap :=
  if arg.1.kind ≠ .pointer then m
  else
    match finalEnv (localName functionName arg.1) with
    | none => m
    | some binding =>
      let extKey := extRegionName summary.function arg.2
      let renamedKey :=
        match stripPrefix (summary.function ++ "$") extKey with
        | some suffix => localPrefix functionName callSiteId ++ "$" ++ suffix
        | none => extKey
      m.insert renamedKey binding.region binding.offset

/-- Replace a parameter by its actual, if that is an integer constant. -/
def substituteActual (φ : Formula) (pair : String × LlvmValue) : Formula :=
  match pair.2.constantInt with
  | some constant => substituteVarNameWithTerm φ pair.1 (.int constant)
  | none => φ

/-- The obligation that `apply_pending_return_summaries` appends to the effects of a call site. -/
def injectedObligation : Formula :=
  let mapping := callMapping functionName summary actualArgs instruction
  let renamed := renameCalleeVars summary.relation mapping summary.function
    (localPrefix functionName callSiteId)
  let regionMap := actualArgs.zipIdx.foldl (mapRegion functionName summary callSiteId finalEnv) []
  let rewritten := substituteExtRegions regionMap renamed
  (summary.formalParameters.zip actualArgs).foldl substituteActual rewritten

end Pipeline

/-! ### Call sites -/

/-- The name LLVM gives to a local value. -/
def SsaName (name : String) : Prop := name.toList.head? = some '%'

instance (name : String) : Decidable (SsaName name) := inferInstanceAs (Decidable (_ = _))

/-- A call site of a procedure whose summary is known, with the names that the lowering gives to
parameters, actuals and results. -/
structure CallSite where
  functionName : String
  summary : ReturnSummary
  actualArgs : List LlvmValue
  instruction : LlvmValue
  callSiteId : ℕ
  finalEnv : PointerEnv
  formals_nodup : summary.formalParameters.Nodup
  formals_name : ∀ f ∈ summary.formalParameters, ∃ p, SsaName p ∧ f = summary.function ++ "$" ++ p
  retval_eq : summary.retvalName = syntheticRetvalName summary.function
  actual_name : ∀ a ∈ actualArgs, a.constantInt = none → SsaName a.displayName
  result_name : SsaName instruction.displayName
  /-- The names the call site introduces are not names of parameters. -/
  formals_fresh : ∀ f ∈ summary.formalParameters, ∀ suffix,
    f ≠ localPrefix functionName callSiteId ++ "$" ++ suffix

namespace CallSite

variable (site : CallSite)

/-- The name is a helper name introduced by a call site. -/
def IsHelper (functionName : String) (callSiteId : ℕ) (name : String) : Prop :=
  ∃ suffix, name = localPrefix functionName callSiteId ++ "$" ++ suffix

/-- The parameters with their actuals. -/
def arguments : List (String × LlvmValue) := site.summary.formalParameters.zip site.actualArgs

/-- The renaming of the first step. -/
def rename (name : String) : String :=
  renameCalleeName
    (callMapping site.functionName site.summary site.actualArgs site.instruction)
    site.summary.function (localPrefix site.functionName site.callSiteId) name

/-- The obligation for a relation. -/
def obligation (R : Formula) : Formula :=
  injectedObligation site.functionName { site.summary with relation := R } site.actualArgs
    site.instruction site.callSiteId site.finalEnv

/-- A relation over integer parameters, the integer return value and helper variables of the
callee. -/
structure Relation (R : Formula) : Prop where
  name : ∀ x ∈ R.leaves, ∃ suffix, x.name = site.summary.function ++ "$" ++ suffix
  scalar : ∀ r, .region r ∉ R.leaves
  interface : ∀ x ∈ R.leaves,
    x.name ∈ site.summary.formalParameters ∨ x.name = site.summary.retvalName →
      x = .termVar (.int x.name)

/-- The value of an actual in a state of the caller. -/
def actualValue (s : State) (a : LlvmValue) : ℤ :=
  match a.constantInt with
  | some constant => constant.toInt
  | none => s.scalars.ints (localName site.functionName a)

/-- The caller's state gives the parameters and the return value of the callee's state. -/
structure Passes (s t : State) : Prop where
  undefined : s.SameUndefined t
  formals : ∀ pair ∈ site.arguments, t.scalars.ints pair.1 = site.actualValue s pair.2
  retval : t.scalars.ints site.summary.retvalName =
    s.scalars.ints (localName site.functionName site.instruction)

/-- The states differ at most in helper variables of the call site. -/
structure AgreesOffHelpers (s s' : State) : Prop where
  undefined : s.SameUndefined s'
  memory_eq : s'.memory = s.memory
  lookup_eq : ∀ v : Var, ¬ IsHelper site.functionName site.callSiteId v.name →
    s'.lookup v = s.lookup v

/-- The obligation says at the call site what the relation says of the call, and no variable of
the caller that the renaming brings in is replaced afterwards. -/
structure Instantiates (R : Formula) : Prop where
  holds_iff : ∀ s, (∃ s', site.AgreesOffHelpers s s' ∧ (site.obligation R).Holds s') ↔
    ∃ t, site.Passes s t ∧ R.Holds t
  kept : ∀ x ∈ (renameFormulaUniform site.rename R).leaves,
    ¬ IsHelper site.functionName site.callSiteId x.name →
      ∀ pair ∈ site.arguments, pair.2.constantInt.isSome → x.name ≠ pair.1

/-- No parameter that receives a constant is among the names, and the renaming gives the name of
such a parameter to none of them. -/
def NoConstant (V : String → Prop) : Prop :=
  ∀ pair ∈ site.arguments, pair.2.constantInt.isSome →
    ¬ V pair.1 ∧ ∀ name, V name → site.rename name ≠ pair.1

end CallSite

/-! ### What each step does -/

section Steps

variable {functionName : String} {mapping : String → Option String} {name : String}
  {pair : String × LlvmValue} {pairs : List (String × LlvmValue)} {φ : Formula} {s : State}
  {m : RegionMap}

theorem foldl_mapActual_of_notMem (h : ∀ pair ∈ pairs, pair.1 ≠ name) :
    (pairs.foldl (mapActual functionName) mapping) name = mapping name := by
  induction pairs generalizing mapping with
  | nil => rfl
  | cons pair pairs ih =>
    rw [List.forall_mem_cons] at h
    rw [List.foldl_cons, ih h.2, mapActual]
    split
    · exact Function.update_of_ne (Ne.symm h.1) _ _
    · rfl

/-- A parameter is mapped as its own actual says. -/
theorem foldl_mapActual_of_mem (hnodup : (pairs.map (·.1)).Nodup) (hpair : pair ∈ pairs) :
    (pairs.foldl (mapActual functionName) mapping) pair.1 =
      if pair.2.constantInt.isNone then some (localName functionName pair.2)
      else mapping pair.1 := by
  induction pairs generalizing mapping with
  | nil => cases hpair
  | cons first pairs ih =>
    rw [List.map_cons, List.nodup_cons] at hnodup
    rw [List.foldl_cons]
    rcases List.mem_cons.1 hpair with rfl | hmem
    · have hnot : ∀ p ∈ pairs, p.1 ≠ pair.1 :=
        fun p hp heq ↦ hnodup.1 (List.mem_map.2 ⟨p, hp, heq⟩)
      rw [foldl_mapActual_of_notMem hnot, mapActual]
      split
      · exact Function.update_self _ _ _
      · rfl
    · have hne : pair.1 ≠ first.1 :=
        fun heq ↦ hnodup.1 (List.mem_map.2 ⟨pair, hmem, heq⟩)
      rw [ih hnodup.2 hmem, mapActual]
      split_ifs
      · rfl
      · exact Function.update_of_ne hne _ _
      · rfl

theorem LeafMap.matches_replaceName {t : Term} {x : Leaf} (h : x.name ≠ name) :
    (LeafMap.replaceName name t).Matches s s x := by
  cases x with
  | boolVar v => simp only [Matches, replaceName, Formula.eval]
  | termVar v =>
    have hne : v.name ≠ name := h
    simp only [Matches, replaceName, if_neg hne, Term.eval]
  | region r => simp only [Matches, replaceName, Memory.eval]

/-- Replacing a name that the formula does not read changes nothing. -/
theorem eval_substituteVarNameWithTerm {t : Term} (h : ∀ x ∈ φ.leaves, x.name ≠ name) :
    (substituteVarNameWithTerm φ name t).eval s = φ.eval s :=
  Formula.eval_rebuild (.refl s) φ fun x hx ↦ LeafMap.matches_replaceName (h x hx)

theorem forall_leaves_substituteVarNameWithTerm {Q : Leaf → Prop} {t : Term}
    (h : ∀ x ∈ φ.leaves, Q x) (ht : ∀ x ∈ t.leaves, Q x) :
    ∀ x ∈ (substituteVarNameWithTerm φ name t).leaves, Q x := by
  refine Formula.forall_leaves_rebuild φ fun l hl x hx ↦ ?_
  cases l with
  | boolVar v =>
    obtain rfl := List.mem_singleton.1 hx
    exact h _ hl
  | termVar v =>
    have hx' : x ∈ (if v.name = name then t else .var v).leaves := hx
    split at hx'
    · exact ht x hx'
    · obtain rfl := List.mem_singleton.1 hx'
      exact h _ hl
  | region r =>
    obtain rfl := List.mem_singleton.1 hx
    exact h _ hl

/-- The last step changes nothing if the formula reads no parameter that receives a constant. -/
theorem eval_foldl_substituteActual
    (h : ∀ x ∈ φ.leaves, ∀ pair ∈ pairs, pair.2.constantInt.isSome → x.name ≠ pair.1) :
    (pairs.foldl substituteActual φ).eval s = φ.eval s := by
  induction pairs generalizing φ with
  | nil => rfl
  | cons pair pairs ih =>
    simp only [List.forall_mem_cons] at h
    rw [List.foldl_cons]
    cases hconstant : pair.2.constantInt with
    | none =>
      have hsame : substituteActual φ pair = φ := by rw [substituteActual, hconstant]
      rw [hsame]
      exact ih fun x hx ↦ (h x hx).2
    | some constant =>
      have hsome : pair.2.constantInt.isSome := by rw [hconstant]; rfl
      have hsubst : substituteActual φ pair =
          substituteVarNameWithTerm φ pair.1 (.int constant) := by
        rw [substituteActual, hconstant]
      rw [hsubst, ih, eval_substituteVarNameWithTerm fun x hx ↦ (h x hx).1 hsome]
      exact forall_leaves_substituteVarNameWithTerm (fun x hx ↦ (h x hx).2) (by simp [Term.leaves])

theorem Memory.exists_region_mem_leaves (mem : Memory) : ∃ r, .region r ∈ mem.leaves := by
  cases mem with
  | var name => exact ⟨name, List.mem_singleton.2 rfl⟩
  | store inner index value =>
    obtain ⟨r, hr⟩ := Memory.exists_region_mem_leaves inner
    exact ⟨r, by simp [Memory.leaves, hr]⟩

mutual

theorem substituteExtRegionsTerm_eq : ∀ t : Term, (∀ r, .region r ∉ t.leaves) →
    substituteExtRegionsTerm m t = t.rebuild .keep
  | .var _, _ | .int _, _ | .real _, _ => rfl
  | .boolToInt value, h => congrArg Term.boolToInt (substituteExtRegions_eq value h)
  | .select memory index, h => by
    obtain ⟨r, hr⟩ := memory.exists_region_mem_leaves
    exact absurd (List.mem_append_left _ hr) (h r)
  | .add lhs rhs, h | .sub lhs rhs, h | .mul lhs rhs, h | .div lhs rhs, h | .rem lhs rhs, h => by
    simp only [Term.leaves, List.mem_append, not_or, forall_and] at h
    simp only [substituteExtRegionsTerm, Term.rebuild]
    rw [substituteExtRegionsTerm_eq lhs h.1, substituteExtRegionsTerm_eq rhs h.2]
  | .neg inner, h => congrArg Term.neg (substituteExtRegionsTerm_eq inner h)

/-- A formula that reads no region is rebuilt as it is. -/
theorem substituteExtRegions_eq : ∀ φ : Formula, (∀ r, .region r ∉ φ.leaves) →
    substituteExtRegions m φ = φ.rebuild .keep
  | .tru, _ | .fls, _ | .var _, _ => rfl
  | .not inner, h => congrArg Formula.not (substituteExtRegions_eq inner h)
  | .and items, h => congrArg Formula.andMany (substituteExtRegionsList_eq items h)
  | .or items, h => congrArg Formula.orMany (substituteExtRegionsList_eq items h)
  | .implies lhs rhs, h => by
    simp only [Formula.leaves, List.mem_append, not_or, forall_and] at h
    simp only [substituteExtRegions, Formula.rebuild]
    rw [substituteExtRegions_eq lhs h.1, substituteExtRegions_eq rhs h.2]
  | .eq lhs rhs, h | .lt lhs rhs, h | .le lhs rhs, h | .gt lhs rhs, h | .ge lhs rhs, h => by
    simp only [Formula.leaves, List.mem_append, not_or, forall_and] at h
    simp only [substituteExtRegions, Formula.rebuild]
    rw [substituteExtRegionsTerm_eq lhs h.1, substituteExtRegionsTerm_eq rhs h.2]
  | .memoryEq lhs rhs, h => by
    obtain ⟨r, hr⟩ := lhs.exists_region_mem_leaves
    exact absurd (List.mem_append_left _ hr) (h r)

theorem substituteExtRegionsList_eq : ∀ items : List Formula,
    (∀ r, .region r ∉ Formula.leavesList items) →
    substituteExtRegionsList m items = Formula.rebuildList .keep items
  | [], _ => rfl
  | item :: rest, h => by
    simp only [Formula.leavesList, List.mem_append, not_or, forall_and] at h
    simp only [substituteExtRegionsList, Formula.rebuildList]
    rw [substituteExtRegions_eq item h.1, substituteExtRegionsList_eq rest h.2]

end

end Steps

/-! ### The renaming of a call site -/

section Rename

namespace CallSite

variable {site : CallSite} {name suffix : String} {pair : String × LlvmValue}

/-- The name is neither a parameter with an actual nor the return variable. -/
def Unmapped (site : CallSite) (name : String) : Prop :=
  name ≠ site.summary.retvalName ∧ ∀ pair ∈ site.arguments, name ≠ pair.1

theorem not_isHelper_localName {functionName : String} {id : ℕ} {value : LlvmValue}
    (h : SsaName value.displayName) : ¬ IsHelper functionName id
      (localName functionName value) := by
  rintro ⟨suffix, hsuffix⟩
  have heq : functionName ++ ("$" ++ value.displayName) =
      functionName ++ ("$call" ++ toString id ++ "$" ++ suffix) := by
    simpa [localName, localPrefix, String.append_assoc] using hsuffix
  have htail := congrArg String.toList ((String.append_right_inj functionName).1 heq)
  have hhead : value.displayName.toList.head? = some 'c' := by
    simp only [String.toList_append] at htail
    have hdrop := congrArg (List.drop 1) htail
    simpa using congrArg List.head? hdrop
  rw [h] at hhead
  exact absurd hhead (by decide)

theorem mem_formals (h : pair ∈ site.arguments) : pair.1 ∈ site.summary.formalParameters :=
  (List.of_mem_zip h).1

theorem nodup_arguments (site : CallSite) : (site.arguments.map (·.1)).Nodup := by
  rw [arguments, List.zip_eq_zip_take_min, List.map_fst_zip (by simp)]
  exact (List.take_sublist _ _).nodup site.formals_nodup

theorem formal_ne_retval (h : pair ∈ site.arguments) : pair.1 ≠ site.summary.retvalName := by
  obtain ⟨p, hp, hpair⟩ := site.formals_name pair.1 (mem_formals h)
  rw [hpair, site.retval_eq, syntheticRetvalName]
  intro heq
  have hhead : p.toList.head? = some '_' := by
    rw [String.append_assoc, String.append_right_inj] at heq
    have htail := congrArg (fun name ↦ (name.toList.drop 1).head?) heq
    simpa using htail
  rw [hp] at hhead
  exact absurd hhead (by decide)

theorem rename_retval : site.rename site.summary.retvalName =
    localName site.functionName site.instruction := by
  rw [rename, renameCalleeName, callMapping, Function.update_self]

/-- A parameter is renamed to its actual, unless that is a constant. -/
theorem rename_formal (h : pair ∈ site.arguments) (hvar : pair.2.constantInt = none) :
    site.rename pair.1 = localName site.functionName pair.2 := by
  rw [rename, renameCalleeName, callMapping, Function.update_of_ne (formal_ne_retval h),
    show site.summary.formalParameters.zip site.actualArgs = site.arguments from rfl,
    foldl_mapActual_of_mem site.nodup_arguments h, hvar]
  rfl

/-- Other names of the callee become helper names. -/
theorem rename_unmapped (h : site.Unmapped (site.summary.function ++ "$" ++ suffix)) :
    site.rename (site.summary.function ++ "$" ++ suffix) =
      localPrefix site.functionName site.callSiteId ++ "$" ++ suffix := by
  rw [rename, renameCalleeName, callMapping, Function.update_of_ne h.1,
    show site.summary.formalParameters.zip site.actualArgs = site.arguments from rfl,
    foldl_mapActual_of_notMem fun p hp ↦ (h.2 p hp).symm, stripPrefix_append]

/-- A parameter that receives a constant becomes a helper name, too. -/
theorem isHelper_rename_constant (h : pair ∈ site.arguments) (hconst : pair.2.constantInt.isSome) :
    IsHelper site.functionName site.callSiteId (site.rename pair.1) := by
  obtain ⟨p, -, hp⟩ := site.formals_name pair.1 (mem_formals h)
  have hnone : pair.2.constantInt.isNone = false := by
    rw [Option.isNone_eq_false_iff]
    exact hconst
  rw [rename, renameCalleeName, callMapping, Function.update_of_ne (formal_ne_retval h),
    show site.summary.formalParameters.zip site.actualArgs = site.arguments from rfl,
    foldl_mapActual_of_mem site.nodup_arguments h, hnone, hp, stripPrefix_append]
  exact ⟨p, rfl⟩

/-- A name the renaming turns into a parameter's name is itself a parameter or the return
variable. -/
theorem mapped_of_rename_eq (h : pair ∈ site.arguments) (hname : site.rename name = pair.1) :
    ¬ site.Unmapped name := by
  intro hun
  obtain ⟨p, -, hp⟩ := site.formals_name pair.1 (mem_formals h)
  rcases hstrip : stripPrefix (site.summary.function ++ "$") name with _ | suffix
  · rw [rename, renameCalleeName, callMapping, Function.update_of_ne hun.1,
      show site.summary.formalParameters.zip site.actualArgs = site.arguments from rfl,
      foldl_mapActual_of_notMem fun p hp ↦ (hun.2 p hp).symm, hstrip] at hname
    exact hun.2 pair h hname
  · rw [stripPrefix_eq_some_iff] at hstrip
    subst hstrip
    rw [rename_unmapped hun] at hname
    exact site.formals_fresh pair.1 (mem_formals h) suffix hname.symm

end CallSite

end Rename

/-! ### What the obligation says -/

section Obligation

namespace CallSite

variable {site : CallSite} {R : Formula} {V : String → Prop} {s s' t : State}

/-- The renamed relation. -/
def renamed (site : CallSite) (R : Formula) : Formula := renameFormulaUniform site.rename R

theorem forall_leaves_renamed {Q : Leaf → Prop} :
    (∀ x ∈ (site.renamed R).leaves, Q x) ↔
      ∀ x ∈ R.leaves, Q (x.rename site.rename site.rename) := by
  rw [renamed, renameFormulaUniform, leaves_renameFormula, List.forall_mem_map]

theorem name_rename (x : Leaf) : (x.rename site.rename site.rename).name = site.rename x.name := by
  cases x <;> rfl

/-- Where no constant is passed under a name that the renamed relation reads, the last two steps
change nothing. -/
theorem holds_obligation (hR : site.Relation R)
    (hconst : ∀ x ∈ R.leaves, ∀ pair ∈ site.arguments, pair.2.constantInt.isSome →
      site.rename x.name ≠ pair.1) :
    (site.obligation R).Holds s ↔ R.Holds (s.pullback site.rename site.rename) := by
  have hregion : ∀ r, .region r ∉ (site.renamed R).leaves := by
    intro r hr
    have hnot : ∀ x ∈ (site.renamed R).leaves, x ≠ .region r := by
      rw [forall_leaves_renamed]
      rintro (v | v | r') hx heq
      · cases heq
      · cases heq
      · exact hR.scalar r' hx
    exact hnot _ hr rfl
  have hnames : ∀ x ∈ ((site.renamed R).rebuild .keep).leaves, ∀ pair ∈ site.arguments,
      pair.2.constantInt.isSome → x.name ≠ pair.1 := by
    refine Formula.forall_leaves_rebuild _ fun l hl x hx ↦ ?_
    have hxl : x = l := by
      cases l <;> exact List.mem_singleton.1 hx
    subst hxl
    revert x
    rw [forall_leaves_renamed]
    intro x hx _ pair hpair hsome
    rw [name_rename]
    exact hconst x hx pair hpair hsome
  have heval : (site.obligation R).eval s = (site.renamed R).eval s := by
    have hkeep : ((site.renamed R).rebuild .keep).eval s = (site.renamed R).eval s :=
      Formula.eval_rebuild (.refl s) _ fun x _ ↦ LeafMap.matches_keep (.refl s x)
    rw [← hkeep, ← eval_foldl_substituteActual hnames, ← substituteExtRegions_eq _ hregion]
    rfl
  rw [Formula.Holds, heval]
  exact holds_renameFormulaUniform

/-- The obligation and the relation agree on states of the caller and of the callee that belong
together. -/
theorem holds_obligation_iff (hR : site.Relation R) (hV : ∀ x ∈ R.leaves, V x.name)
    (hconst : site.NoConstant V) (hpass : site.Passes s t) (hag : site.AgreesOffHelpers s s')
    (hhelper : ∀ v : Var, site.Unmapped v.name →
      (∃ suffix, v.name = site.summary.function ++ "$" ++ suffix) →
        t.lookup v = s'.lookup (v.rename site.rename)) :
    (site.obligation R).Holds s' ↔ R.Holds t := by
  rw [holds_obligation hR fun x hx pair hpair hsome ↦ (hconst pair hpair hsome).2 _ (hV x hx)]
  have hundef : (s'.pullback site.rename site.rename).SameUndefined t :=
    (State.sameUndefined_pullback.symm.trans hag.undefined.symm).trans hpass.undefined
  refine Formula.holds_congr hundef fun x hx ↦ ?_
  -- A parameter or the return variable is an integer, and both states read it off the caller.
  have hint : ∀ value : LlvmValue, SsaName value.displayName →
      s'.scalars.ints (localName site.functionName value) =
        s.scalars.ints (localName site.functionName value) := by
    intro value hvalue
    have hlookup := hag.lookup_eq (.int (localName site.functionName value))
      (not_isHelper_localName hvalue)
    simpa [State.lookup, Var.int] using hlookup
  have hinterface : ∀ value : LlvmValue, SsaName value.displayName →
      (x.name ∈ site.summary.formalParameters ∨ x.name = site.summary.retvalName) →
      site.rename x.name = localName site.functionName value →
      t.scalars.ints x.name = s.scalars.ints (localName site.functionName value) →
      x.Same (s'.pullback site.rename site.rename) t := by
    intro value hvalue hmem hrename ht
    rw [hR.interface x hx hmem]
    show (s'.pullback site.rename site.rename).lookup (.int x.name) = t.lookup (.int x.name)
    rw [State.lookup_pullback]
    show Value.int (s'.scalars.ints (site.rename x.name)) = Value.int (t.scalars.ints x.name)
    rw [hrename, hint value hvalue, ht]
  by_cases hun : site.Unmapped x.name
  · cases x with
    | boolVar v => exact (State.lookup_pullback v).trans (hhelper v hun (hR.name _ hx)).symm
    | termVar v => exact (State.lookup_pullback v).trans (hhelper v hun (hR.name _ hx)).symm
    | region r => exact absurd hx (hR.scalar r)
  · rw [Unmapped, not_and_or] at hun
    push Not at hun
    rcases hun with hret | ⟨pair, hpair, hname⟩
    · refine hinterface site.instruction site.result_name (.inr hret) ?_ ?_
      · rw [hret]
        exact rename_retval
      · rw [hret]
        exact hpass.retval
    · have hvar : pair.2.constantInt = none := by
        by_contra hsome
        have hV' := (hconst pair hpair (Option.isSome_iff_ne_none.2 hsome)).1
        exact hV' (hname ▸ hV x hx)
      refine hinterface pair.2 (site.actual_name _ (List.of_mem_zip hpair).2 hvar)
        (.inl (hname ▸ mem_formals hpair)) ?_ ?_
      · rw [hname]
        exact rename_formal hpair hvar
      · rw [hname, hpass.formals pair hpair, actualValue, hvar]

/-- The caller's state with the helper variables read off the callee's state. -/
def withHelpers (site : CallSite) (s t : State) : State :=
  let source := stripPrefix (localPrefix site.functionName site.callSiteId ++ "$")
  let calleeName suffix := site.summary.function ++ "$" ++ suffix
  { s with
    scalars := { s.scalars with
      bools := fun name ↦ (source name).elim (s.scalars.bools name)
        (t.scalars.bools <| calleeName ·)
      ints := fun name ↦ (source name).elim (s.scalars.ints name) (t.scalars.ints <| calleeName ·)
      reals := fun name ↦
        (source name).elim (s.scalars.reals name) (t.scalars.reals <| calleeName ·) } }

theorem lookup_withHelpers (v : Var) : (site.withHelpers s t).lookup v =
    (stripPrefix (localPrefix site.functionName site.callSiteId ++ "$") v.name).elim (s.lookup v)
      fun suffix ↦ t.lookup ⟨site.summary.function ++ "$" ++ suffix, v.sort⟩ := by
  rcases v with ⟨name, _ | _ | _⟩ <;>
    rcases h : stripPrefix (localPrefix site.functionName site.callSiteId ++ "$") name <;>
      simp [State.lookup, withHelpers, h]

theorem agreesOffHelpers_withHelpers : site.AgreesOffHelpers s (site.withHelpers s t) where
  undefined := ⟨rfl, rfl, rfl⟩
  memory_eq := rfl
  lookup_eq := by
    intro v hv
    rw [lookup_withHelpers]
    rcases h : stripPrefix (localPrefix site.functionName site.callSiteId ++ "$") v.name with
      _ | suffix
    · rfl
    · exact absurd ⟨suffix, stripPrefix_eq_some_iff.1 h⟩ hv

/-- The callee's state with the parameters and the return value read off the caller's state, and
every other variable as its new name in the second state. -/
def calleeState (site : CallSite) (s s' : State) : State :=
  let passed name :=
    if name = site.summary.retvalName then
      s.scalars.ints (localName site.functionName site.instruction)
    else
      match site.arguments.find? (·.1 = name) with
      | some pair => site.actualValue s pair.2
      | none => s'.scalars.ints (site.rename name)
  { s'.pullback site.rename site.rename with
    scalars := { (s'.pullback site.rename site.rename).scalars with ints := passed } }

theorem find?_arguments {pair : String × LlvmValue} (h : pair ∈ site.arguments) :
    site.arguments.find? (·.1 = pair.1) = some pair := by
  rcases hfind : site.arguments.find? (·.1 = pair.1) with _ | found
  · have hnone := List.find?_eq_none.1 hfind pair h
    simp at hnone
  · have hname : found.1 = pair.1 := by simpa using List.find?_some hfind
    have hfound : found = pair :=
      List.inj_on_of_nodup_map site.nodup_arguments (List.mem_of_find?_eq_some hfind) h hname
    exact hfind.trans (congrArg some hfound)

theorem passes_calleeState (hundef : s.SameUndefined s') :
    site.Passes s (site.calleeState s s') where
  undefined := hundef
  formals := by
    intro pair hpair
    simp only [calleeState, if_neg (formal_ne_retval hpair), find?_arguments hpair]
  retval := by simp only [calleeState, if_true]

theorem lookup_calleeState {v : Var} (h : site.Unmapped v.name) :
    (site.calleeState s s').lookup v = s'.lookup (v.rename site.rename) := by
  have hfind : site.arguments.find? (·.1 = v.name) = none := by
    rw [List.find?_eq_none]
    intro pair hpair
    simpa using (h.2 pair hpair).symm
  rcases v with ⟨name, _ | _ | _⟩
  · rfl
  · simp only [State.lookup, calleeState, Var.rename, if_neg h.1]
    rw [hfind]
  · rfl

/-- Where no constant is lost, the obligation says at the call site what the relation says of the
call. -/
theorem exists_holds_obligation_iff (hR : site.Relation R) (hV : ∀ x ∈ R.leaves, V x.name)
    (hconst : site.NoConstant V) :
    (∃ s', site.AgreesOffHelpers s s' ∧ (site.obligation R).Holds s') ↔
      ∃ t, site.Passes s t ∧ R.Holds t := by
  constructor
  · rintro ⟨s', hag, hs'⟩
    have hpass : site.Passes s (site.calleeState s s') := passes_calleeState hag.undefined
    have hiff := holds_obligation_iff hR hV hconst hpass hag fun v hv _ ↦ lookup_calleeState hv
    exact ⟨site.calleeState s s', hpass, hiff.1 hs'⟩
  · rintro ⟨t, hpass, ht⟩
    refine ⟨site.withHelpers s t, agreesOffHelpers_withHelpers,
      (holds_obligation_iff hR hV hconst hpass agreesOffHelpers_withHelpers ?_).2 ht⟩
    rintro ⟨name, sort⟩ hv ⟨suffix, hname⟩
    subst hname
    have hrename : (Var.mk (site.summary.function ++ "$" ++ suffix) sort).rename site.rename =
        ⟨localPrefix site.functionName site.callSiteId ++ "$" ++ suffix, sort⟩ := by
      rw [Var.rename, rename_unmapped hv]
    rw [hrename, lookup_withHelpers, stripPrefix_append]
    rfl

/-- The relation that an integer variable has a given value. -/
def nameEq (name : String) (k : Int64) : Formula := .eq (.var (.int name)) (.int k)

theorem holds_nameEq {name : String} {k : Int64} :
    (nameEq name k).Holds s ↔ s.scalars.ints name = k.toInt := by
  simp [nameEq, Formula.Holds, Formula.eval, Term.eval, State.lookup, Var.int, Value.compare]

theorem leaves_nameEq (name : String) (k : Int64) :
    (nameEq name k).leaves = [.termVar (.int name)] := rfl

theorem relation_nameEq {name suffix : String} {k : Int64}
    (h : name = site.summary.function ++ "$" ++ suffix) : site.Relation (nameEq name k) where
  name := by
    rw [leaves_nameEq, List.forall_mem_singleton]
    exact ⟨suffix, h⟩
  scalar := by
    intro r hr
    cases List.mem_singleton.1 hr
  interface := by
    rw [leaves_nameEq, List.forall_mem_singleton]
    exact fun _ ↦ rfl

/-- A relation that reads a parameter which receives a constant loses the constant. -/
theorem not_instantiates_nameEq {pair : String × LlvmValue} {constant k : Int64}
    (hpair : pair ∈ site.arguments) (hconstant : pair.2.constantInt = some constant)
    (hk : k ≠ constant) : ¬ site.Instantiates (nameEq pair.1 k) := by
  intro hinst
  have hsome : pair.2.constantInt.isSome := by rw [hconstant]; rfl
  obtain ⟨p, -, hp⟩ := site.formals_name pair.1 (mem_formals hpair)
  obtain ⟨suffix, hhelper⟩ := isHelper_rename_constant hpair hsome
  -- The obligation is about the helper variable, which is free to have the value.
  let s' := State.zero.set (.int (site.rename pair.1)) (.int k.toInt)
  have hag : site.AgreesOffHelpers .zero s' := by
    refine ⟨State.sameUndefined_set _ _ _, State.memory_set _ _ _, fun v hv ↦ ?_⟩
    refine State.lookup_set_of_ne ?_
    rintro rfl
    exact hv ⟨suffix, hhelper⟩
  have hholds : (site.obligation (nameEq pair.1 k)).Holds s' := by
    rw [holds_obligation (relation_nameEq hp), holds_nameEq]
    · simp [s', State.pullback, State.set, Var.int]
    · rw [leaves_nameEq, List.forall_mem_singleton]
      intro other hother _ heq
      refine site.formals_fresh other.1 (mem_formals hother) suffix ?_
      rw [← heq]
      exact hhelper
  obtain ⟨t, hpass, ht⟩ := (hinst.holds_iff .zero).1 ⟨s', hag, hholds⟩
  rw [holds_nameEq, hpass.formals pair hpair, actualValue, hconstant] at ht
  exact hk (Int64.toInt_inj.1 ht.symm)

/-- Instantiation is right for the relations over given names exactly when no parameter among the
names receives a constant and the renaming gives none of the names to such a parameter. The helper
names of two call sites never meet. -/
theorem instantiates_iff (site : CallSite) (V : String → Prop) :
    ((∀ R, site.Relation R → (∀ x ∈ R.leaves, V x.name) → site.Instantiates R) ↔
        site.NoConstant V) ∧
      ∀ id, id ≠ site.callSiteId → ∀ name, IsHelper site.functionName site.callSiteId name →
        ¬ IsHelper site.functionName id name := by
  refine ⟨⟨fun h pair hpair hsome ↦ ⟨fun hV ↦ ?_, fun name hV hname ↦ ?_⟩, ?_⟩, ?_⟩
  · obtain ⟨constant, hconstant⟩ := Option.isSome_iff_exists.1 hsome
    obtain ⟨p, -, hp⟩ := site.formals_name pair.1 (mem_formals hpair)
    have hk : (if constant = 0 then 1 else 0) ≠ constant := by
      split_ifs with hzero
      · rw [hzero]
        decide
      · exact Ne.symm hzero
    refine not_instantiates_nameEq hpair hconstant hk (h _ (relation_nameEq hp) ?_)
    rw [leaves_nameEq, List.forall_mem_singleton]
    exact hV
  · -- The name is a parameter or the return variable, so a relation can read it.
    have hmapped := mapped_of_rename_eq hpair hname
    rw [Unmapped, not_and_or] at hmapped
    push Not at hmapped
    have hrelation : site.Relation (nameEq name 0) := by
      rcases hmapped with hret | ⟨other, hother, heq⟩
      · have hsuffix : name = site.summary.function ++ "$" ++ "__retval" := by
          rw [hret, site.retval_eq, syntheticRetvalName, String.append_assoc]
          rfl
        exact relation_nameEq hsuffix
      · obtain ⟨p, -, hp⟩ := site.formals_name other.1 (mem_formals hother)
        exact relation_nameEq (heq.trans hp)
    have hleaves : ∀ x ∈ (nameEq name 0).leaves, V x.name := by
      rw [leaves_nameEq, List.forall_mem_singleton]
      exact hV
    have hkept := (h _ hrelation hleaves).kept (.termVar (.int (site.rename name)))
      (List.mem_singleton.2 rfl)
    refine hkept ?_ pair hpair hsome hname
    rintro ⟨suffix, hsuffix⟩
    exact site.formals_fresh pair.1 (mem_formals hpair) suffix (hname.symm.trans hsuffix)
  · intro hconst R hR hV
    refine ⟨fun s ↦ exists_holds_obligation_iff hR hV hconst, ?_⟩
    have hleaf : ∀ x ∈ (site.renamed R).leaves, ∀ pair ∈ site.arguments,
        pair.2.constantInt.isSome → x.name ≠ pair.1 := by
      rw [forall_leaves_renamed]
      intro x hx pair hpair hsome
      rw [name_rename]
      exact (hconst pair hpair hsome).2 _ (hV x hx)
    exact fun x hx _ ↦ hleaf x hx
  · rintro id hid name ⟨suffix, hsuffix⟩ ⟨suffix', hsuffix'⟩
    refine hid (eq_of_append_toString (hsuffix'.symm.trans hsuffix))

end CallSite

end Obligation

/-! ### Two calls that pass a constant -/

section ConstantCalls

/-- The constant five. -/
def fiveValue : LlvmValue := ⟨.integer 32, "i32 5", some 5, none, "i32 5"⟩

/-- A local 32-bit integer. -/
def localValue (name : String) : LlvmValue := ⟨.integer 32, name, none, none, "i32 " ++ name⟩

/-- `r = g(5)` in a function `f`, for a callee that returns its parameter. -/
def constantCall : CallSite where
  functionName := "f"
  summary :=
    { function := "g"
      formalParameters := ["g$%x"]
      retvalName := "g$__retval"
      relation := .eq (.var (.int "g$__retval")) (.var (.int "g$%x"))
      writeEffects := []
      ptrWrites := [] }
  actualArgs := [fiveValue]
  instruction := localValue "%r"
  callSiteId := 0
  finalEnv _ := none
  formals_nodup := by decide
  formals_name := by
    intro f hf
    obtain rfl := List.mem_singleton.1 hf
    exact ⟨"%x", by decide, by decide⟩
  retval_eq := by decide
  actual_name := by
    intro a ha hvar
    obtain rfl := List.mem_singleton.1 ha
    cases hvar
  result_name := by decide
  formals_fresh := by
    intro f hf suffix heq
    obtain rfl := List.mem_singleton.1 hf
    have hhead := congrArg (fun name ↦ name.toList.head?) heq
    simp [localPrefix] at hhead

/-- `f(5, a)` inside of `f(a, b)`. -/
def recursiveCall : CallSite where
  functionName := "f"
  summary :=
    { function := "f"
      formalParameters := ["f$%a", "f$%b"]
      retvalName := "f$__retval"
      relation := CallSite.nameEq "f$%b" 0
      writeEffects := []
      ptrWrites := [] }
  actualArgs := [fiveValue, localValue "%a"]
  instruction := localValue "%r"
  callSiteId := 0
  finalEnv _ := none
  formals_nodup := by decide
  formals_name := by
    intro f hf
    rw [List.mem_pair] at hf
    rcases hf with rfl | rfl
    · exact ⟨"%a", by decide, by decide⟩
    · exact ⟨"%b", by decide, by decide⟩
  retval_eq := by decide
  actual_name := by
    intro a ha hvar
    rw [List.mem_pair] at ha
    rcases ha with rfl | rfl
    · cases hvar
    · decide
  result_name := by decide
  formals_fresh := by
    intro f hf suffix heq
    rw [List.mem_pair] at hf
    have hhead := congrArg (fun name ↦ (name.toList.drop 2).head?) heq
    rcases hf with rfl | rfl <;> simp [localPrefix] at hhead

theorem relation_constantCall : constantCall.Relation constantCall.summary.relation where
  name := by
    intro x hx
    rcases List.mem_pair.1 hx with rfl | rfl
    · exact ⟨"__retval", by decide⟩
    · exact ⟨"%x", by decide⟩
  scalar := by
    intro r hr
    rcases List.mem_pair.1 hr with h | h <;> cases h
  interface := by
    intro x hx _
    rcases List.mem_pair.1 hx with rfl | rfl <;> rfl

/-- The obligation reads a helper variable where the constant should be. -/
theorem obligation_constantCall : constantCall.obligation constantCall.summary.relation =
    .eq (.var (.int "f$%r")) (.var (.int "f$call0$%x")) := by
  decide

/-- The obligation reads the constant where the caller's variable should be. -/
theorem obligation_recursiveCall : recursiveCall.obligation recursiveCall.summary.relation =
    .eq (.int 5) (.int 0) := by
  decide

/-- The result of the first call may be anything for the caller. The second call loses the caller's
variable to the constant. -/
theorem not_instantiates_constantCall :
    (constantCall.Relation constantCall.summary.relation ∧
        ¬ constantCall.Instantiates constantCall.summary.relation) ∧
      recursiveCall.Relation recursiveCall.summary.relation ∧
        ¬ recursiveCall.Instantiates recursiveCall.summary.relation := by
  have hname : "f$%b" = recursiveCall.summary.function ++ "$" ++ "%b" := by decide
  refine ⟨⟨relation_constantCall, fun h ↦ ?_⟩, CallSite.relation_nameEq hname, fun h ↦ ?_⟩
  · have hholds : (constantCall.obligation constantCall.summary.relation).Holds .zero := by
      rw [obligation_constantCall]
      rfl
    obtain ⟨t, hpass, ht⟩ := (h.holds_iff .zero).1 ⟨.zero, ⟨.refl _, rfl, fun _ _ ↦ rfl⟩, hholds⟩
    have hformal : t.scalars.ints "g$%x" = 5 :=
      hpass.formals ("g$%x", fiveValue) (List.mem_singleton.2 rfl)
    have hretval : t.scalars.ints "g$__retval" = 0 := hpass.retval
    simp [constantCall, Formula.Holds, Formula.eval, Term.eval, State.lookup, Var.int,
      Value.compare, hformal, hretval] at ht
  · have hpass : recursiveCall.Passes .zero
        (State.zero.set (.int "f$%a") (.int 5)) := by
      refine ⟨State.sameUndefined_set _ _ _, ?_, rfl⟩
      intro pair hpair
      rcases List.mem_pair.1 hpair with rfl | rfl
      · rfl
      · rfl
    obtain ⟨s', -, hs'⟩ := (h.holds_iff .zero).2 ⟨_, hpass, CallSite.holds_nameEq.2 rfl⟩
    rw [obligation_recursiveCall] at hs'
    cases hs'

end ConstantCalls

end MayMust
