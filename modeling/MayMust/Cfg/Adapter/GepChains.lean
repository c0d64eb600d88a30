import MayMust.Cfg.Adapter.Gep
import MayMust.Cfg.Adapter.MemoryResolution
import MayMust.Library.Strided

/-!
# Chains of pointer arithmetic

Where `lower_gep` and the resolution of its result locate the scalars of an object. A chain of
`getelementptr` instructions starts at a pointer to the object. Each instruction either adds a
number of cells to the offset of its base, or moves to a region for a field of the struct its base
points to, at offset zero.

The two ways do not agree: the same field of a struct is in a region of its own or in that of the
struct, depending on the shape of the instruction. So scalars are told apart, and located the same
way on every chain, only in objects without structs. There the offsets are those of rows rounded
to cells of four bytes, which tell the scalars apart if each takes a cell, or if only one index
varies (`locatesScalars_iff`).
-/

namespace MayMust

open Library

/-! ### Resolution -/

/-- What `resolve_memory_effects` binds the result of a `getelementptr` to. -/
def GepLowering.resolve (parent : PointerBinding) : GepLowering → PointerBinding
  | .offset term => ⟨parent.region, .add parent.offset term⟩
  | .structField fieldIndex => ⟨parent.region ++ "$f" ++ toString fieldIndex, .int 0⟩

/-- The effect `lower_node_transfer` gives a `getelementptr`. -/
def GepLowering.effect (target base : String) : GepLowering → TransferEffect
  | .offset term => .getElementPtr target base term
  | .structField fieldIndex => .structFieldGep target base fieldIndex

/-- The binding of the last pointer of a chain whose first pointer has a binding. -/
def chainBinding (function : String) (layout : TargetData) (base : PointerBinding)
    (chain : List GepInstruction) : Except AdapterError PointerBinding :=
  chain.foldlM (fun parent i ↦ (lowerGep function layout i).map (GepLowering.resolve parent)) base

/-- The effects of a chain whose instructions have these results. -/
def chainEffects (function : String) (layout : TargetData) :
    String → List (String × GepInstruction) → Except AdapterError (List TransferEffect)
  | _, [] => .ok []
  | base, (target, i) :: links => do
    let lowering ← lowerGep function layout i
    let effects ← chainEffects function layout target links
    return lowering.effect target base :: effects

/-- The last pointer of a chain. -/
def lastPointer : String → List (String × GepInstruction) → String
  | base, [] => base
  | _, (target, _) :: links => lastPointer target links

section Resolution

variable {function : String} {layout : TargetData} {st : Resolver} {base : String}
  {parent : PointerBinding}

/-- The resolver binds the result of a `getelementptr` so. -/
theorem env_resolveEffect_gep (input : ResolverInput) (node : CfgNodeId) (target : String)
    (h : st.env base = some parent) (lowering : GepLowering) :
    (Resolver.resolveEffect input node st (lowering.effect target base)).1.env target =
      some (lowering.resolve parent) := by
  cases lowering <;> simp [GepLowering.effect, GepLowering.resolve, Resolver.resolveEffect, h,
    Resolver.bind?, Resolver.bind]

/-- The resolver binds the last pointer of a chain so. -/
theorem env_resolveEffects_chain (input : ResolverInput) (node : CfgNodeId)
    {links : List (String × GepInstruction)} {effects : List TransferEffect}
    (heffects : chainEffects function layout base links = .ok effects)
    (h : st.env base = some parent) :
    ∃ binding, chainBinding function layout parent (links.map Prod.snd) = .ok binding ∧
      (Resolver.resolveEffects input node st effects).1.env (lastPointer base links) =
        some binding := by
  induction links generalizing st base parent effects with
  | nil =>
    obtain rfl := Except.ok.inj heffects
    exact ⟨parent, rfl, h⟩
  | cons link links ih =>
    obtain ⟨target, i⟩ := link
    obtain ⟨lowering, hlowering, heffects⟩ := bind_eq_ok.1 heffects
    obtain ⟨rest, hrest, hpure⟩ := bind_eq_ok.1 heffects
    obtain rfl := pure_eq_ok.1 hpure
    obtain ⟨binding, hbinding, henv⟩ :=
      ih hrest (env_resolveEffect_gep input node target h lowering)
    refine ⟨binding, ?_, henv⟩
    rw [chainBinding, List.map_cons, List.foldlM_cons, bind_eq_ok]
    exact ⟨_, by rw [hlowering]; rfl, hbinding⟩

end Resolution

/-! ### Objects and their parts -/

namespace LlvmType

/-- The type of the part of an object at a path of indices. Arrays may be exceeded by some number
of elements. -/
def typeAt (past : ℕ) : LlvmType → List ℕ → Option LlvmType
  | type, [] => some type
  | .array element length, i :: path =>
    if i < length + past then element.typeAt past path else none
  | .struct fields, k :: path => fields[k]?.bind fun field ↦ field.typeAt past path
  | .scalar _, _ :: _ => none

/-- The path leads to a scalar of the object. -/
def ScalarPath (type : LlvmType) (path : List ℕ) : Prop :=
  ∃ kind, type.typeAt 0 path = some (.scalar kind)

/-- An array of arrays of scalars. -/
def nest (kind : TypeKind) : List ℕ → LlvmType
  | [] => .scalar kind
  | d :: dims => .array (nest kind dims) d

end LlvmType

/-- The sizes and offsets are those of LLVM's layout of the type. -/
inductive TargetData.Correct (layout : TargetData) : LlvmType → Prop
  | scalar {kind : TypeKind} (hpos : 0 < (layout.storeSize (.scalar kind)).toNat)
      (hle : (layout.storeSize (.scalar kind)).toNat ≤ layout.abiSize (.scalar kind)) :
      layout.Correct (.scalar kind)
  | array {element : LlvmType} {length : ℕ} (h : layout.Correct element)
      (hstore : (layout.storeSize (.array element length)).toNat =
        length * layout.abiSize element)
      (habi : layout.abiSize (.array element length) = length * layout.abiSize element) :
      layout.Correct (.array element length)
  /-- Fields do not overlap. Their indices are 32-bit integers. -/
  | struct {fields : List LlvmType} (h : ∀ field ∈ fields, layout.Correct field)
      (hlength : fields.length < 2 ^ 31)
      (hfirst : (layout.offsetOfElement (.struct fields) 0).toNat = 0)
      (hnext : ∀ k field, fields[k]? = some field → k + 1 < fields.length →
        (layout.offsetOfElement (.struct fields) (UInt32.ofNat k)).toNat + layout.abiSize field ≤
          (layout.offsetOfElement (.struct fields) (UInt32.ofNat (k + 1))).toNat)
      (hlast : ∀ k field, fields[k]? = some field →
        (layout.offsetOfElement (.struct fields) (UInt32.ofNat k)).toNat + layout.abiSize field ≤
          (layout.storeSize (.struct fields)).toNat)
      (habi : (layout.storeSize (.struct fields)).toNat ≤ layout.abiSize (.struct fields)) :
      layout.Correct (.struct fields)

/-! ### Chains of instructions -/

/-- The operand has the value in the state. -/
def IndexValue (function : String) (s : State) (index : LlvmValue) (z : ℤ) : Prop :=
  ∃ t, lowerIntegerValue function index = .ok t ∧ t.eval s = .int z

/-- The indices behind the first one lead from an object to a part of it, or to the end of one of
its arrays. Indices of structs are 32-bit constants. -/
inductive Descends (function : String) (s : State) : LlvmType → List LlvmValue → List ℕ → Prop
  | nil (type : LlvmType) : Descends function s type [] []
  | array {element : LlvmType} {length k : ℕ} {index : LlvmValue} {indices : List LlvmValue}
      {path : List ℕ} (hindex : IndexValue function s index k) (hk : k ≤ length)
      (h : Descends function s element indices path) :
      Descends function s (.array element length) (index :: indices) (k :: path)
  | struct {fields : List LlvmType} {field : LlvmType} {k : ℕ} {index : LlvmValue}
      {indices : List LlvmValue} {path : List ℕ}
      (hindex : index.constantInt = some (Int64.ofNat k)) (hk : k < 2 ^ 31)
      (hfield : fields[k]? = some field) (h : Descends function s field indices path) :
      Descends function s (.struct fields) (index :: indices) (k :: path)

/-- The first index leads from a part to another element of the same array, or to its end. -/
inductive Slides (type : LlvmType) : List ℕ → ℤ → List ℕ → Prop
  | stay (path : List ℕ) : Slides type path 0 path
  | slide {path : List ℕ} {element : LlvmType} {length i j : ℕ}
      (h : type.typeAt 1 path = some (.array element length)) (hj : j ≤ length) :
      Slides type (path ++ [i]) (j - i) (path ++ [j])

/-- A chain of instructions, from a pointer to an object of a type, leads to the part at a path.
The elements an instruction steps over have the type of the part its base points to. -/
inductive Addresses (function : String) (s : State) (type : LlvmType) :
    List GepInstruction → List ℕ → Prop
  | base : Addresses function s type [] []
  | gep {chain : List GepInstruction} {path path' rest : List ℕ} {part : LlvmType}
      {first : LlvmValue} {indices : List LlvmValue} {z : ℤ} (pointer : LlvmValue)
      (h : Addresses function s type chain path) (hpart : type.typeAt 1 path = some part)
      (hfirst : IndexValue function s first z) (hslide : Slides type path z path')
      (hdescends : Descends function s part indices rest) :
      Addresses function s type (chain ++ [⟨pointer :: first :: indices, some part⟩])
        (path' ++ rest)
  /-- A pointer to an array is one to its first element. -/
  | decay {chain : List GepInstruction} {path : List ℕ} {element : LlvmType} {length : ℕ}
      (h : Addresses function s type chain path)
      (hpart : type.typeAt 1 path = some (.array element length)) :
      Addresses function s type chain (path ++ [0])

/-- The bindings denote the same cell. -/
def SameLocation (s : State) (b b' : PointerBinding) : Prop :=
  b.region = b'.region ∧ b.offset.eval s = b'.offset.eval s

/-- Chains from a pointer to an object of the type have the same location exactly if they lead to
the same scalar. -/
def LocatesScalars (function : String) (layout : TargetData) (type : LlvmType) : Prop :=
  ∀ (s : State) (base : PointerBinding) (n : ℤ), base.offset.eval s = .int n →
    ∀ chain chain' path path', Addresses function s type chain path →
      Addresses function s type chain' path' → type.ScalarPath path → type.ScalarPath path' →
        ∃ b b', chainBinding function layout base chain = .ok b ∧
          chainBinding function layout base chain' = .ok b' ∧
            (SameLocation s b b' ↔ path = path')

/-- The object has no scalars, or it is an array of arrays of scalars of at least four bytes each,
or of which at most one array has more than one element. -/
def Rectangular (layout : TargetData) (type : LlvmType) : Prop :=
  (¬ ∃ path, type.ScalarPath path) ∨
    ∃ kind dims, type = .nest kind dims ∧
      (4 ≤ layout.abiSize (.scalar kind) ∨ proper dims ≤ 1)

/-! ### Offsets of parts -/

namespace LlvmType

variable {type part : LlvmType} {past : ℕ} {path rest : List ℕ} {kind : TypeKind} {dims : List ℕ}

theorem typeAt_append : ∀ (type : LlvmType) (path rest : List ℕ),
    type.typeAt past (path ++ rest) = (type.typeAt past path).bind (·.typeAt past rest)
  | type, [], rest => by
    cases type <;> rfl
  | .array element length, i :: path, rest => by
    rw [List.cons_append, typeAt, typeAt, typeAt_append element path rest]
    split <;> rfl
  | .struct fields, k :: path, rest => by
    rw [List.cons_append, typeAt, typeAt]
    cases fields[k]? with
    | none => rfl
    | some field => exact typeAt_append field path rest
  | .scalar kind, i :: path, rest => rfl

/-- The parts of nested arrays are nested arrays. -/
theorem exists_nest_of_typeAt (h : (nest kind dims).typeAt past path = some part) :
    ∃ dims', part = nest kind dims' := by
  induction dims generalizing path with
  | nil =>
    cases path with
    | nil => exact ⟨[], (Option.some.inj h).symm⟩
    | cons i path => cases h
  | cons d dims ih =>
    cases path with
    | nil => exact ⟨d :: dims, (Option.some.inj h).symm⟩
    | cons i path =>
      rw [nest, typeAt] at h
      split_ifs at h with hi
      exact ih h

/-- The scalars of nested arrays. -/
theorem scalarPath_nest_iff : (nest kind dims).ScalarPath path ↔ Within dims path := by
  induction dims generalizing path with
  | nil =>
    rw [within_nil]
    constructor
    · rintro ⟨kind', h⟩
      cases path with
      | nil => rfl
      | cons i path => cases h
    · rintro rfl
      exact ⟨kind, rfl⟩
  | cons d dims ih =>
    rw [within_cons]
    constructor
    · rintro ⟨kind', h⟩
      cases path with
      | nil => cases h
      | cons i path =>
        rw [nest, typeAt] at h
        split_ifs at h with hi
        exact ⟨i, path, hi, ih.1 ⟨kind', h⟩, rfl⟩
    · rintro ⟨i, path, hi, hpath, rfl⟩
      obtain ⟨kind', h⟩ := ih.2 hpath
      refine ⟨kind', ?_⟩
      rw [nest, typeAt, if_pos (by omega)]
      exact h

end LlvmType

namespace TargetData

variable {layout : TargetData} {type part : LlvmType} {past : ℕ} {path rest : List ℕ}
  {kind : TypeKind} {dims : List ℕ}

/-- The cells before a part, as `lower_gep` counts them. -/
def cells (layout : TargetData) : LlvmType → List ℕ → ℕ
  | _, [] => 0
  | .array element _, i :: path =>
    i * inWords 4 (layout.storeSize element).toNat + layout.cells element path
  | .struct fields, k :: path =>
    (layout.offsetOfElement (.struct fields) (UInt32.ofNat k)).toNat / 4 +
      layout.cells (fields[k]?.getD (.struct fields)) path
  | .scalar _, _ :: _ => 0

theorem cells_append (h : type.typeAt past path = some part) (rest : List ℕ) :
    layout.cells type (path ++ rest) = layout.cells type path + layout.cells part rest := by
  induction path generalizing type with
  | nil =>
    have htype : type = part := by cases type <;> exact Option.some.inj h
    subst htype
    cases type <;> simp [cells]
  | cons i path ih =>
    cases type with
    | scalar kind => cases h
    | array element length =>
      rw [LlvmType.typeAt] at h
      split_ifs at h with hi
      rw [List.cons_append, cells, cells, ih h, Nat.add_assoc]
    | struct fields =>
      obtain ⟨field, hfield, h⟩ := Option.bind_eq_some_iff.1 h
      rw [List.cons_append, cells, cells, hfield, Option.getD_some, ih h, Nat.add_assoc]

/-- The allocated size of nested arrays. -/
theorem abiSize_nest (h : layout.Correct (.nest kind dims)) :
    layout.abiSize (.nest kind dims) = dims.prod * layout.abiSize (.scalar kind) := by
  induction dims with
  | nil => rw [List.prod_nil, one_mul]; rfl
  | cons d dims ih =>
    cases h with
    | array h _ habi => rw [LlvmType.nest, habi, ih h, List.prod_cons, mul_assoc]

/-- The size of nested arrays. -/
theorem storeSize_nest (h : layout.Correct (.nest kind dims)) :
    (layout.storeSize (.nest kind dims)).toNat =
      rowBytes (layout.storeSize (.scalar kind)).toNat (layout.abiSize (.scalar kind)) dims := by
  cases dims with
  | nil => rfl
  | cons d dims =>
    cases h with
    | array h hstore _ =>
      rw [LlvmType.nest, hstore, abiSize_nest h, rowBytes, List.prod_cons, mul_assoc]

/-- The cells before a part of nested arrays are those of rows of words. -/
theorem cells_nest (h : layout.Correct (.nest kind dims)) (path : List ℕ) :
    layout.cells (.nest kind dims) path =
      strided (rowStrides 4 (layout.storeSize (.scalar kind)).toNat
        (layout.abiSize (.scalar kind)) dims) path := by
  induction dims generalizing path with
  | nil => cases path <;> rfl
  | cons d dims ih =>
    cases path with
    | nil => rfl
    | cons i path =>
      cases h with
      | array h _ _ =>
        rw [LlvmType.nest, cells, rowStrides, strided_cons_cons, storeSize_nest h, ih h]

theorem Correct.scalar_le (h : layout.Correct (.nest kind dims)) :
    (layout.storeSize (.scalar kind)).toNat ≤ layout.abiSize (.scalar kind) := by
  induction dims with
  | nil =>
    cases h with
    | scalar _ hle => exact hle
  | cons d dims ih =>
    cases h with
    | array h _ _ => exact ih h

end TargetData

/-! ### What an instruction adds -/

section Lowering

variable {function : String} {layout : TargetData} {s : State} {part type : LlvmType}
  {indices : List LlvmValue} {path rest : List ℕ} {first pointer : LlvmValue} {z : ℤ}

theorem typeAt_of_descends (h : Descends function s part indices rest) :
    ∃ type, part.typeAt 1 rest = some type := by
  induction h with
  | nil type => exact ⟨type, by cases type <;> rfl⟩
  | array _ hk _ ih =>
    rw [LlvmType.typeAt, if_pos (by omega)]
    exact ih
  | struct _ _ hfield _ ih =>
    rw [LlvmType.typeAt, hfield]
    exact ih

theorem eval_add_int {t u : Term} {m n : ℤ} (ht : t.eval s = .int m) (hu : u.eval s = .int n) :
    (Term.add t u).eval s = .int (m + n) := by
  rw [Term.eval, ht, hu]
  rfl

theorem eval_mul_stride (layout : TargetData) {t : Term} {k : ℤ} (ht : t.eval s = .int k)
    (element : LlvmType) :
    (Term.mul t (.int (gepStride layout element))).eval s =
      .int (k * inWords 4 (layout.storeSize element).toNat) := by
  rw [Term.eval, ht, Term.eval, TargetData.toInt_gepStride]
  rfl

/-- The lowering reads the 32-bit index of a field right. -/
theorem toUInt32_ofNat (k : ℕ) : (Int64.ofNat k).toUInt64.toUInt32 = UInt32.ofNat k := by
  rw [Int64.toUInt64_ofNat', UInt64.toUInt32_ofNat']

theorem zero_le_ofNat {k : ℕ} (hk : k < 2 ^ 63) : 0 ≤ Int64.ofNat k := by
  rw [Int64.le_iff_toInt_le, Int64.toInt_ofNat_of_lt hk]
  exact Int.natCast_nonneg k

theorem toInt_inCells (bytes : UInt64) :
    (Int64.ofNat (bytes.toNat / 4)).toInt = (bytes.toNat / 4 : ℕ) := by
  have hlt := bytes.toNat_lt
  exact Int64.toInt_ofNat_of_lt (by omega)

/-- The indices behind the first one add the cells before the part they lead to. -/
theorem gepSteps_of_descends (h : Descends function s part indices rest) {t : Term} {n : ℤ}
    (ht : t.eval s = .int n) :
    ∃ t', gepSteps function layout part t indices = .ok t' ∧
      t'.eval s = .int (n + layout.cells part rest) := by
  induction h generalizing t n with
  | nil type =>
    refine ⟨t, by cases type <;> rfl, ?_⟩
    rw [ht, TargetData.cells]
    simp
  | @array element length k index indices path hindex hk h ih =>
    obtain ⟨u, hu, heval⟩ := hindex
    obtain ⟨t', ht', heval'⟩ := ih (eval_add_int ht (eval_mul_stride layout heval element))
    refine ⟨t', ?_, ?_⟩
    · rw [gepSteps, bind_eq_ok]
      exact ⟨u, hu, ht'⟩
    · rw [heval', TargetData.cells]
      push_cast
      rw [add_assoc]
  | @struct fields field k index indices path hindex hk hfield h ih =>
    have hnat : (UInt32.ofNat k).toNat = k :=
      UInt32.toNat_ofNat_of_lt' (hk.trans (by decide))
    have hoffset : (Term.int (Int64.ofNat
        ((layout.offsetOfElement (.struct fields) (UInt32.ofNat k)).toNat / 4))).eval s =
          .int ((layout.offsetOfElement (.struct fields) (UInt32.ofNat k)).toNat / 4 : ℕ) := by
      rw [Term.eval, toInt_inCells]
    obtain ⟨t', ht', heval'⟩ := ih (eval_add_int ht hoffset)
    refine ⟨t', ?_, ?_⟩
    · rw [gepSteps, hindex]
      simp only [toUInt32_ofNat, hnat, hfield, Option.getD_some]
      exact ht'
    · rw [heval', TargetData.cells, hfield, Option.getD_some]
      push_cast
      rw [add_assoc]

/-- An instruction that does not select a field of the struct its base points to adds cells. -/
theorem lowerGep_eq_offset (layout : TargetData) (pointer : LlvmValue)
    (hselected : selectedField part (first :: indices) = none)
    (hfirst : IndexValue function s first z) (h : Descends function s part indices rest) :
    ∃ t, lowerGep function layout ⟨pointer :: first :: indices, some part⟩ = .ok (.offset t) ∧
      t.eval s = .int (z * inWords 4 (layout.storeSize part).toNat + layout.cells part rest) := by
  obtain ⟨u, hu, heval⟩ := hfirst
  have hzero : (Term.int 0).eval s = .int 0 := rfl
  obtain ⟨t, ht, heval'⟩ := gepSteps_of_descends h
    (eval_add_int hzero (eval_mul_stride layout heval part))
  refine ⟨t, ?_, by rw [heval', zero_add]⟩
  have hoffset : gepOffset function layout part (first :: indices) = .ok t := by
    rw [gepOffset, bind_eq_ok]
    exact ⟨u, hu, ht⟩
  simp only [lowerGep, hselected, hoffset]
  rfl

theorem chainBinding_append {base b : PointerBinding} {chain : List GepInstruction}
    {i : GepInstruction} {lowering : GepLowering}
    (h : chainBinding function layout base chain = .ok b)
    (hi : lowerGep function layout i = .ok lowering) :
    chainBinding function layout base (chain ++ [i]) = .ok (lowering.resolve b) := by
  rw [chainBinding, List.foldlM_append, bind_eq_ok]
  refine ⟨b, h, ?_⟩
  rw [List.foldlM_cons, hi]
  rfl

/-- Sliding keeps the type and adds the cells of the elements stepped over. -/
theorem Slides.typeAt_and_cells (layout : TargetData) {path' : List ℕ}
    (h : Slides type path z path')
    (hpart : type.typeAt 1 path = some part) :
    type.typeAt 1 path' = some part ∧
      (layout.cells type path' : ℤ) =
        layout.cells type path + z * inWords 4 (layout.storeSize part).toNat := by
  cases h with
  | stay => exact ⟨hpart, by simp⟩
  | @slide path element length i j harray hj =>
    have hnil : element.typeAt 1 [] = some element := by cases element <;> rfl
    rw [LlvmType.typeAt_append, harray, Option.bind_some, LlvmType.typeAt] at hpart
    split_ifs at hpart with hi
    obtain rfl : element = part := Option.some.inj (hnil.symm.trans hpart)
    refine ⟨?_, ?_⟩
    · rw [LlvmType.typeAt_append, harray, Option.bind_some, LlvmType.typeAt, if_pos (by omega)]
      exact hnil
    · rw [TargetData.cells_append harray, TargetData.cells_append harray]
      simp only [TargetData.cells]
      push_cast
      ring

/-- Chains through nested arrays stay in the region of the object, at the cells before the part
they lead to. -/
theorem chainBinding_of_addresses (layout : TargetData) {kind : TypeKind} {dims : List ℕ}
    {base : PointerBinding} {n : ℤ}
    {chain : List GepInstruction} (hbase : base.offset.eval s = .int n)
    (h : Addresses function s (.nest kind dims) chain path) :
    (∃ part, (LlvmType.nest kind dims).typeAt 1 path = some part) ∧
      ∃ b, chainBinding function layout base chain = .ok b ∧ b.region = base.region ∧
        b.offset.eval s = .int (n + layout.cells (.nest kind dims) path) := by
  induction h with
  | base =>
    refine ⟨⟨_, by cases dims <;> rfl⟩, base, rfl, rfl, ?_⟩
    rw [hbase, TargetData.cells]
    simp
  | @gep chain path path' rest part first indices z pointer h hpart hfirst hslide hdescends ih =>
    obtain ⟨-, b, hb, hregion, heval⟩ := ih
    obtain ⟨dims', rfl⟩ := LlvmType.exists_nest_of_typeAt hpart
    have hselected : selectedField (.nest kind dims') (first :: indices) = none := by
      cases dims' <;> rfl
    obtain ⟨t, ht, htval⟩ := lowerGep_eq_offset layout pointer hselected
      hfirst hdescends
    -- Sliding adds the cells of the elements stepped over.
    have hslid := hslide.typeAt_and_cells layout hpart
    obtain ⟨type', htype'⟩ := typeAt_of_descends hdescends
    refine ⟨⟨type', ?_⟩, _, chainBinding_append hb ht, hregion, ?_⟩
    · rw [LlvmType.typeAt_append, hslid.1]
      exact htype'
    · rw [GepLowering.resolve, eval_add_int heval htval, TargetData.cells_append hslid.1]
      push_cast
      rw [hslid.2]
      ring_nf
  | @decay chain path element length h hpart ih =>
    obtain ⟨-, b, hb, hregion, heval⟩ := ih
    refine ⟨⟨element, ?_⟩, b, hb, hregion, ?_⟩
    · rw [LlvmType.typeAt_append, hpart, Option.bind_some, LlvmType.typeAt, if_pos (by omega)]
      cases element <;> rfl
    · rw [heval, TargetData.cells_append hpart]
      simp [TargetData.cells]

end Lowering

/-! ### Operands for given indices -/

/-- A variable that is named after its value. -/
def indexOperand (k : ℕ) : LlvmValue := ⟨.integer 64, "%" ++ toString k, none, none, toString k⟩

/-- The state in which these variables have their values. -/
def indexState (function : String) : State where
  scalars := { State.zero.scalars with
    ints := fun name ↦
      match stripPrefix (function ++ "$%") name with
      | some digits => (Nat.ofDigitChars 10 digits.toList 0 : ℤ)
      | none => 0 }
  memory := State.zero.memory

section Operands

variable {function : String} {layout : TargetData} {s : State} {type part : LlvmType}
  {path rest : List ℕ} {kind : TypeKind} {dims : List ℕ}

theorem indexValue_indexOperand (function : String) (k : ℕ) :
    IndexValue function (indexState function) (indexOperand k) k := by
  refine ⟨_, rfl, ?_⟩
  have hname : localName function (indexOperand k) = function ++ "$%" ++ toString k := by
    simp only [localName, indexOperand, ← String.toList_inj, String.toList_append,
      List.append_assoc]
    rfl
  show Value.int ((indexState function).scalars.ints (localName function (indexOperand k))) = _
  rw [hname, indexState]
  simp only [stripPrefix_append, Nat.toString_eq_repr, Nat.toList_repr,
    Nat.ofDigitChars_ten_toDigits]

theorem indexValue_constantOperand_zero : IndexValue function s (constantOperand 0) 0 :=
  ⟨_, rfl, rfl⟩

theorem descends_nest (h : Within dims path) :
    Descends function (indexState function) (.nest kind dims) (path.map indexOperand) path := by
  induction dims generalizing path with
  | nil =>
    obtain rfl := within_nil.1 h
    exact .nil _
  | cons d dims ih =>
    obtain ⟨i, is, hi, his, rfl⟩ := within_cons.1 h
    exact .array (indexValue_indexOperand _ i) hi.le (ih his)

/-- The scalars of nested arrays are told apart exactly if their cells are different. -/
theorem locatesScalars_nest_iff (h : layout.Correct (.nest kind dims)) :
    LocatesScalars function layout (.nest kind dims) ↔
      ∀ path path', Within dims path → Within dims path' →
        layout.cells (.nest kind dims) path = layout.cells (.nest kind dims) path' →
          path = path' := by
  constructor
  · intro hlocates path path' hpath hpath' heq
    have hchain {path : List ℕ} (hpath : Within dims path) :
        Addresses function (indexState function) (.nest kind dims)
          ([] ++ [⟨indexOperand 0 :: indexOperand 0 :: path.map indexOperand,
            some (.nest kind dims)⟩]) ([] ++ path) :=
      .gep (indexOperand 0) .base (by cases dims <;> rfl) (indexValue_indexOperand function 0)
        (.stay []) (descends_nest hpath)
    have hbase : (PointerBinding.mk "r" (.int 0)).offset.eval (indexState function) = .int 0 := rfl
    obtain ⟨b, b', hb, hb', hsame⟩ := hlocates _ _ 0 hbase _ _ _ _ (hchain hpath) (hchain hpath')
      (LlvmType.scalarPath_nest_iff.2 hpath) (LlvmType.scalarPath_nest_iff.2 hpath')
    obtain ⟨-, c, hc, hregion, heval⟩ := chainBinding_of_addresses layout hbase
      (hchain hpath)
    obtain ⟨-, c', hc', hregion', heval'⟩ := chainBinding_of_addresses layout hbase
      (hchain hpath')
    obtain rfl : b = c := Except.ok.inj (hb.symm.trans hc)
    obtain rfl : b' = c' := Except.ok.inj (hb'.symm.trans hc')
    refine hsame.1 ⟨hregion.trans hregion'.symm, ?_⟩
    rw [heval, heval', List.nil_append, List.nil_append, heq]
  · intro hinj s base n hbase chain chain' path path' hchain hchain' hpath hpath'
    obtain ⟨-, b, hb, hregion, heval⟩ := chainBinding_of_addresses layout hbase hchain
    obtain ⟨-, b', hb', hregion', heval'⟩ :=
      chainBinding_of_addresses layout hbase hchain'
    refine ⟨b, b', hb, hb', fun hsame ↦ ?_, ?_⟩
    · refine hinj path path' (LlvmType.scalarPath_nest_iff.1 hpath)
        (LlvmType.scalarPath_nest_iff.1 hpath') ?_
      have heq := hsame.2
      rw [heval, heval', Value.int.injEq] at heq
      omega
    · rintro rfl
      exact ⟨hregion.trans hregion'.symm, heval.trans heval'.symm⟩

end Operands

/-! ### Objects with structs -/

/-- A path to a scalar that takes the first element of each array. -/
inductive Plain : LlvmType → List ℕ → Prop
  | scalar (kind : TypeKind) : Plain (.scalar kind) []
  | array {element : LlvmType} {length : ℕ} {path : List ℕ} (hpos : 0 < length)
      (h : Plain element path) : Plain (.array element length) (0 :: path)
  | struct {fields : List LlvmType} {field : LlvmType} {k : ℕ} {path : List ℕ}
      (hfield : fields[k]? = some field) (h : Plain field path) :
      Plain (.struct fields) (k :: path)

/-- The number of structs on a path. -/
def structSteps : LlvmType → List ℕ → ℕ
  | _, [] => 0
  | .array element _, _ :: path => structSteps element path
  | .struct fields, k :: path => structSteps (fields[k]?.getD (.struct fields)) path + 1
  | .scalar _, _ :: _ => 0

section Structs

variable {function : String} {layout : TargetData} {s : State} {type part : LlvmType}
  {path path' rest : List ℕ}

theorem exists_plain (h : type.ScalarPath path) : ∃ path', Plain type path' := by
  obtain ⟨kind, h⟩ := h
  induction path generalizing type with
  | nil =>
    have htype : type = .scalar kind := by cases type <;> exact Option.some.inj h
    exact ⟨[], htype ▸ .scalar kind⟩
  | cons i path ih =>
    cases type with
    | scalar kind' => cases h
    | array element length =>
      rw [LlvmType.typeAt] at h
      split_ifs at h with hi
      obtain ⟨path', hpath'⟩ := ih h
      exact ⟨0 :: path', .array (by omega) hpath'⟩
    | struct fields =>
      obtain ⟨field, hfield, h⟩ := Option.bind_eq_some_iff.1 h
      obtain ⟨path', hpath'⟩ := ih h
      exact ⟨i :: path', .struct hfield hpath'⟩

theorem Plain.scalarPath (h : Plain type path) : type.ScalarPath path := by
  induction h with
  | scalar kind => exact ⟨kind, rfl⟩
  | array hpos _ ih =>
    obtain ⟨kind, ih⟩ := ih
    exact ⟨kind, by rw [LlvmType.typeAt, if_pos (by omega)]; exact ih⟩
  | struct hfield _ ih =>
    obtain ⟨kind, ih⟩ := ih
    exact ⟨kind, by rw [LlvmType.typeAt, hfield]; exact ih⟩

/-- Without structs on the path the object is an array of arrays. -/
theorem Plain.exists_nest (h : Plain type path) (hsteps : structSteps type path = 0) :
    ∃ kind dims, type = .nest kind dims := by
  induction h with
  | scalar kind => exact ⟨kind, [], rfl⟩
  | @array element length path hpos _ ih =>
    obtain ⟨kind, dims, rfl⟩ := ih hsteps
    exact ⟨kind, length :: dims, rfl⟩
  | struct => simp [structSteps] at hsteps

/-- The indices of a path in one instruction. -/
theorem Plain.exists_descends (function : String) (s : State) (h : Plain type path)
    (hcorrect : layout.Correct type) :
    ∃ indices, Descends function s type indices path := by
  induction h with
  | scalar kind => exact ⟨[], .nil _⟩
  | array hpos _ ih =>
    cases hcorrect with
    | array hcorrect _ _ =>
      obtain ⟨indices, hindices⟩ := ih hcorrect
      exact ⟨_, .array indexValue_constantOperand_zero (Nat.zero_le _) hindices⟩
  | @struct fields field k path hfield _ ih =>
    cases hcorrect with
    | struct hcorrect hlength _ _ _ _ =>
      obtain ⟨indices, hindices⟩ := ih (hcorrect field (List.mem_of_getElem? hfield))
      have hk := (List.getElem?_eq_some_iff.1 hfield).1
      exact ⟨constantOperand k :: indices, .struct rfl (by omega) hfield hindices⟩

theorem selectedField_eq_none {first : LlvmValue} (h : first.constantInt = none)
    (indices : List LlvmValue) : selectedField type (first :: indices) = none := by
  cases type with
  | scalar kind => rfl
  | array element length => rfl
  | struct fields =>
    rcases indices with _ | ⟨second, _ | ⟨third, indices⟩⟩
    · rfl
    · simp [selectedField, h]
    · rfl

/-- One index after the other, each struct on the path adds a field to the region's name. -/
theorem Plain.exists_stepwise (h : Plain part rest) (hcorrect : layout.Correct part)
    {chain : List GepInstruction} (hchain : Addresses function s type chain path)
    (hpart : type.typeAt 1 path = some part) {base b : PointerBinding}
    (hb : chainBinding function layout base chain = .ok b) :
    ∃ chain' b', Addresses function s type chain' (path ++ rest) ∧
      chainBinding function layout base chain' = .ok b' ∧
        b.region.length + structSteps part rest ≤ b'.region.length := by
  induction h generalizing path chain b with
  | scalar kind => exact ⟨chain, b, by rwa [List.append_nil], hb, le_refl _⟩
  | @array element length rest hpos _ ih =>
    cases hcorrect with
    | array hcorrect _ _ =>
      have hdescends : Descends function s (.array element length) [constantOperand 0] [0] :=
        .array indexValue_constantOperand_zero (Nat.zero_le _) (.nil _)
      have hchain' := Addresses.gep (constantOperand 0) hchain hpart
        indexValue_constantOperand_zero (.stay path) hdescends
      obtain ⟨t, ht, -⟩ := lowerGep_eq_offset layout (constantOperand 0) rfl
        indexValue_constantOperand_zero hdescends
      have helement : type.typeAt 1 (path ++ [0]) = some element := by
        rw [LlvmType.typeAt_append, hpart, Option.bind_some, LlvmType.typeAt, if_pos (by omega)]
        cases element <;> rfl
      obtain ⟨chain', b', hchain', hb', hlength⟩ :=
        ih hcorrect hchain' helement (chainBinding_append hb ht)
      exact ⟨chain', b', by simpa using hchain', hb', hlength⟩
  | @struct fields field k rest hfield _ ih =>
    cases hcorrect with
    | struct hcorrect hlength _ _ _ _ =>
      have hk := (List.getElem?_eq_some_iff.1 hfield).1
      have hdescends : Descends function s (.struct fields) [constantOperand k] [k] :=
        .struct rfl (by omega) hfield (.nil _)
      have hchain' := Addresses.gep (constantOperand 0) hchain hpart
        indexValue_constantOperand_zero (.stay path) hdescends
      have hselected : selectedField (.struct fields) [constantOperand 0, constantOperand k] =
          some (Int64.ofNat k).toUInt64.toUInt32 := if_pos (zero_le_ofNat (by omega))
      have hlower : lowerGep function layout
          ⟨constantOperand 0 :: constantOperand 0 :: [constantOperand k], some (.struct fields)⟩ =
            .ok (.structField (Int64.ofNat k).toUInt64.toUInt32) := by
        simp only [lowerGep, hselected]
      have hfieldAt : type.typeAt 1 (path ++ [k]) = some field := by
        rw [LlvmType.typeAt_append, hpart, Option.bind_some, LlvmType.typeAt, hfield]
        cases field <;> rfl
      obtain ⟨chain', b', hchain', hb', hlength⟩ :=
        ih (hcorrect field (List.mem_of_getElem? hfield))
        hchain' hfieldAt (chainBinding_append hb hlower)
      refine ⟨chain', b', by simpa using hchain', hb', ?_⟩
      rw [structSteps, hfield, Option.getD_some]
      simp only [GepLowering.resolve, String.length_append] at hlength
      have htwo : "$f".length = 2 := rfl
      omega

/-- Objects with scalars in structs have scalars with two locations. -/
theorem not_locatesScalars_of_structSteps (hcorrect : layout.Correct type) (h : Plain type path)
    (hsteps : 0 < structSteps type path) : ¬ LocatesScalars function layout type := by
  intro hlocates
  have htype : type.typeAt 1 [] = some type := by cases type <;> rfl
  have hbase : (PointerBinding.mk "r" (.int 0)).offset.eval (indexState function) = .int 0 := rfl
  have hstart : Addresses function (indexState function) type [] [] := .base
  have hempty : chainBinding function layout ⟨"r", .int 0⟩ [] = .ok ⟨"r", .int 0⟩ := rfl
  obtain ⟨chain, b, hchain, hb, hlength⟩ := h.exists_stepwise hcorrect hstart htype hempty
  -- With a variable as first index, one instruction stays in the region.
  obtain ⟨indices, hindices⟩ :=
    h.exists_descends function (indexState function) hcorrect
  have hchain' := Addresses.gep (constantOperand 0) .base htype
    (indexValue_indexOperand function 0) (.stay []) hindices
  obtain ⟨t, ht, -⟩ := lowerGep_eq_offset layout (constantOperand 0)
    (selectedField_eq_none rfl indices) (indexValue_indexOperand function 0) hindices
  obtain ⟨c, c', hc, hc', hsame⟩ := hlocates _ _ 0 hbase _ _ _ _ hchain hchain' h.scalarPath
    h.scalarPath
  obtain rfl : b = c := Except.ok.inj (hb.symm.trans hc)
  obtain rfl := Except.ok.inj ((chainBinding_append rfl ht).symm.trans hc')
  have hregion : b.region = "r" := (hsame.2 rfl).1
  rw [hregion] at hlength
  exact absurd hlength (by simpa using hsteps.ne')

end Structs

/-- The scalars of an object are told apart by their locations, and located the same way on every
chain, exactly if it has none or is an array of arrays of scalars of which each takes a cell or at
most one array has more than one element. -/
theorem locatesScalars_iff {layout : TargetData} {type : LlvmType} (h : layout.Correct type)
    (function : String) : LocatesScalars function layout type ↔ Rectangular layout type := by
  constructor
  · intro hlocates
    by_cases hscalar : ∃ path, type.ScalarPath path
    · right
      obtain ⟨path, hpath⟩ := hscalar
      obtain ⟨path', hplain⟩ := exists_plain hpath
      have hsteps : structSteps type path' = 0 := by
        by_contra hne
        exact not_locatesScalars_of_structSteps h hplain (Nat.pos_of_ne_zero hne) hlocates
      obtain ⟨kind, dims, rfl⟩ := hplain.exists_nest hsteps
      have hpos := (LlvmType.scalarPath_nest_iff.1 hpath).pos
      have hinj := (locatesScalars_nest_iff h).1 hlocates
      simp only [TargetData.cells_nest h] at hinj
      exact ⟨kind, dims, rfl, (rowStrides_injective_iff (by decide) h.scalar_le hpos).1 hinj⟩
    · exact .inl hscalar
  · rintro (hnone | ⟨kind, dims, rfl, hcells⟩)
    · intro s base n hbase chain chain' path path' _ _ hpath _
      exact absurd ⟨path, hpath⟩ hnone
    · rw [locatesScalars_nest_iff h]
      intro path path' hpath hpath' heq
      rw [TargetData.cells_nest h, TargetData.cells_nest h] at heq
      exact (rowStrides_injective_iff (by decide) h.scalar_le hpath.pos).2 hcells path path' hpath
        hpath' heq

/-! ### An array of structs -/

/-- The layout of words, structs of one word, and arrays of these. -/
def wordLayout : TargetData where
  storeSize
    | .array _ length => UInt64.ofNat (length * 4)
    | _ => 4
  offsetOfElement _ _ := 0
  abiSize
    | .array _ length => length * 4
    | _ => 4

theorem correct_word : wordLayout.Correct (.scalar (.integer 32)) :=
  .scalar (by decide) (by decide)

theorem locatesScalars_words :
    LocatesScalars "f" wordLayout (.array (.scalar (.integer 32)) 3) :=
  (locatesScalars_iff (.array correct_word rfl rfl) "f").2
    (.inr ⟨.integer 32, [3], rfl, .inl (by decide)⟩)

/-- `struct { int x; }`. -/
def oneField : LlvmType := .struct [.scalar (.integer 32)]

theorem correct_oneField : wordLayout.Correct oneField := by
  refine .struct ?_ (by decide) rfl ?_ ?_ (by decide)
  · intro field hfield
    rw [List.mem_singleton.1 hfield]
    exact correct_word
  · intro k field _ hk
    simp at hk
  · intro k field hk
    rw [List.mem_singleton.1 (List.mem_of_getElem? hk)]
    exact le_refl 4

/-- The element of an array of two structs, and then its field. -/
def fieldOfElement (k : ℕ) : List GepInstruction := [
  ⟨[constantOperand 0, constantOperand 0, constantOperand k], some (.array oneField 2)⟩,
  ⟨[constantOperand 0, constantOperand 0, constantOperand 0], some oneField⟩]

/-- The fields of both elements are the first cell of one region. -/
theorem not_locatesScalars_structs : wordLayout.Correct (.array oneField 2) ∧
    ¬ LocatesScalars "f" wordLayout (.array oneField 2) := by
  refine ⟨.array correct_oneField rfl rfl, fun hlocates ↦ ?_⟩
  have helement {k : ℕ} (hk : k < 2) (hindex : IndexValue "f" .zero (constantOperand k) k) :
      Addresses "f" .zero (.array oneField 2) (fieldOfElement k) [k, 0] := by
    have hbase : Addresses "f" .zero (.array oneField 2) [] [] := .base
    have hfirst := Addresses.gep (constantOperand 0) hbase rfl indexValue_constantOperand_zero
      (.stay []) (.array hindex hk.le (.nil oneField))
    have hpart : (LlvmType.array oneField 2).typeAt 1 [k] = some oneField := by
      rw [LlvmType.typeAt, if_pos (by omega)]
      rfl
    exact Addresses.gep (constantOperand 0) hfirst hpart indexValue_constantOperand_zero
      (.stay [k]) (.struct rfl (by decide) rfl (.nil _))
  obtain ⟨b, b', hb, hb', hsame⟩ := hlocates .zero ⟨"r", .int 0⟩ 0 rfl _ _ _ _
    (helement (k := 0) (by decide) ⟨_, rfl, rfl⟩) (helement (k := 1) (by decide) ⟨_, rfl, rfl⟩)
    ⟨_, rfl⟩ ⟨_, rfl⟩
  obtain rfl := Except.ok.inj hb
  obtain rfl := Except.ok.inj hb'
  exact absurd (hsame.1 ⟨rfl, rfl⟩) (by decide)

end MayMust
