import MayMust.Library.Path

/-!
# Fallible computations

Inversion of successful computations in `Except`, one lemma per combinator, and the view of a
successful monadic fold as a path: the labels are the list, a step is one successful call. All
the rules about paths then apply to loops that may fail.
-/

namespace Library

universe u v

variable {ε ε' : Type v} {α β : Type u}

@[simp] theorem bind_eq_ok {x : Except ε α} {f : α → Except ε β} {b : β} :
    (x >>= f) = .ok b ↔ ∃ a, x = .ok a ∧ f a = .ok b := by
  cases x <;> simp [bind, Except.bind]

@[simp] theorem pure_eq_ok {a b : α} : (pure a : Except ε α) = .ok b ↔ a = b := by
  simp [pure, Except.pure]

@[simp] theorem throw_ne_ok {e : ε} {a : α} : (throw e : Except ε α) ≠ .ok a := by
  simp [throw, throwThe, MonadExceptOf.throw]

/-- Translating the error does not change which computations succeed. -/
@[simp] theorem ok_of_mapError {translate : ε → ε'} {x : Except ε α} {a : α} :
    Except.mapError translate x = .ok a ↔ x = .ok a := by
  cases x with
  | error e =>
    show Except.error (translate e) = .ok a ↔ _
    simp only [reduceCtorEq]
  | ok b =>
    show Except.ok b = .ok a ↔ _
    simp only [Except.ok.injEq]

/-- What follows a computation matters only where the computation succeeds. -/
theorem bind_congr_ok {x : Except ε α} {f f' : α → Except ε β}
    (h : ∀ a, x = .ok a → f a = f' a) : (x >>= f) = x >>= f' := by
  cases x with
  | error e => rfl
  | ok a => exact h a rfl

theorem toOption_eq_some {x : Except ε α} {a : α} : x.toOption = some a ↔ x = .ok a := by
  cases x <;> simp [Except.toOption]

theorem map_eq_ok {x : Except ε α} {f : α → β} {b : β} :
    x.map f = .ok b ↔ ∃ a, x = .ok a ∧ f a = b := by
  cases x <;> simp [Except.map]

/-- A successful fold is a path whose steps are the successful calls. -/
theorem foldlM_eq_ok_iff {f : β → α → Except ε β} {as : List α} {b c : β} :
    as.foldlM f b = .ok c ↔ Path (fun a b c ↦ f b a = .ok c) as b c := by
  induction as generalizing b with
  | nil => simp
  | cons a as ih => simp [ih]

/-- The results of a successful map. -/
theorem mem_iff_of_mapM_eq_ok {f : α → Except ε β} {as : List α} {bs : List β}
    (h : as.mapM f = .ok bs) {b : β} : b ∈ bs ↔ ∃ a ∈ as, f a = .ok b := by
  induction as generalizing bs with
  | nil =>
    obtain rfl := Except.ok.inj h
    simp
  | cons a as ih =>
    simp only [List.mapM_cons, bind_eq_ok, pure_eq_ok] at h
    obtain ⟨c, hc, cs, hcs, rfl⟩ := h
    have hhead : b = c ↔ f a = .ok b := by rw [hc, Except.ok.injEq, eq_comm]
    simp [ih hcs, hhead]

/-- A map that succeeds does so on every element. -/
theorem exists_of_mapM_eq_ok {f : α → Except ε β} {as : List α} {bs : List β}
    (h : as.mapM f = .ok bs) {a : α} (ha : a ∈ as) : ∃ b, f a = .ok b := by
  induction as generalizing bs with
  | nil => cases ha
  | cons a' as ih =>
    simp only [List.mapM_cons, bind_eq_ok, pure_eq_ok] at h
    obtain ⟨c, hc, cs, hcs, rfl⟩ := h
    rcases List.mem_cons.1 ha with rfl | ha
    · exact ⟨c, hc⟩
    · exact ih hcs ha

/-- A fold that succeeds calls every element with success. -/
theorem exists_of_foldlM_eq_ok {f : β → α → Except ε β} {as : List α} {b c : β}
    (h : as.foldlM f b = .ok c) {a : α} (ha : a ∈ as) : ∃ m n, f m a = .ok n := by
  induction as generalizing b with
  | nil => cases ha
  | cons a' as ih =>
    rw [List.foldlM_cons, bind_eq_ok] at h
    obtain ⟨m, hm, hrest⟩ := h
    rcases List.mem_cons.1 ha with rfl | ha
    · exact ⟨b, m, hm⟩
    · exact ih hrest ha

/-- What one step of a fold establishes and all steps keep is true at its end. -/
theorem of_foldlM_eq_ok_of_mem {P : β → Prop} {f : β → α → Except ε β} {as : List α} {b c : β}
    (hkeep : ∀ a ∈ as, ∀ m n, f m a = .ok n → P m → P n) {a : α} (ha : a ∈ as)
    (hset : ∀ m n, f m a = .ok n → P n) (h : as.foldlM f b = .ok c) : P c := by
  induction as generalizing b with
  | nil => cases ha
  | cons a' as ih =>
    rw [List.foldlM_cons, bind_eq_ok] at h
    obtain ⟨m, hm, hrest⟩ := h
    rw [List.forall_mem_cons] at hkeep
    rcases List.mem_cons.1 ha with rfl | ha
    · exact Path.invariant hkeep.2 (foldlM_eq_ok_iff.1 hrest) (hset b m hm)
    · exact ih hkeep.2 ha hrest

/-- A fold succeeds if each step does from every value that has an invariant, and keeps it. -/
theorem exists_foldlM_eq_ok {P : β → Prop} {f : β → α → Except ε β} {as : List α}
    (h : ∀ a ∈ as, ∀ m, P m → ∃ n, f m a = .ok n ∧ P n) {b : β} (hb : P b) :
    ∃ c, as.foldlM f b = .ok c ∧ P c := by
  induction as generalizing b with
  | nil => exact ⟨b, rfl, hb⟩
  | cons a as ih =>
    rw [List.forall_mem_cons] at h
    obtain ⟨m, hm, hP⟩ := h.1 b hb
    obtain ⟨c, hc, hPc⟩ := ih h.2 hP
    refine ⟨c, ?_, hPc⟩
    rw [List.foldlM_cons, bind_eq_ok]
    exact ⟨m, hm, hc⟩

/-- What is true at the start of a fold and kept by its steps is true at its end. -/
theorem foldlM_some_invariant {P : β → Prop} {f : β → α → Option β} {xs : List α}
    (hstep : ∀ x ∈ xs, ∀ b b', f b x = some b' → P b → P b') {b b' : β}
    (h : xs.foldlM f b = some b') (hb : P b) : P b' := by
  induction xs generalizing b with
  | nil =>
    obtain rfl := Option.some.inj h
    exact hb
  | cons x xs ih =>
    rw [List.foldlM_cons] at h
    obtain ⟨c, hc, hrest⟩ := Option.bind_eq_some_iff.1 h
    rw [List.forall_mem_cons] at hstep
    exact ih hstep.2 hrest (hstep.1 b c hc hb)

end Library
