import Mathlib.Logic.Basic

/-!
# Labelled paths

A labelled step relation `step : α → σ → σ → Prop` and the paths along a list of labels. An
effect list of a program is such a path (labels are effects, states are program states), and so
is an execution of a control-flow graph (labels are edge crossings, states are positions).

The rules below are the ones every induction over a run uses: paths split at `++`, an
invariant kept by every step is kept by the path (`Path.invariant`), a step relation may be
replaced by a weaker one (`Path.mono`), and labels that only test the state can be tested at the
end if no later label changes what they test (`Path.gather`).
-/

namespace Library

variable {α σ : Type*}

/-- The labels lead from one state to another. -/
def Path (step : α → σ → σ → Prop) : List α → σ → σ → Prop
  | [], s, t => s = t
  | a :: as, s, t => ∃ m, step a s m ∧ Path step as m t

namespace Path

variable {step step' : α → σ → σ → Prop} {a : α} {as bs : List α} {s t : σ}

@[simp] theorem nil_iff : Path step [] s t ↔ s = t := Iff.rfl

@[simp] theorem cons_iff : Path step (a :: as) s t ↔ ∃ m, step a s m ∧ Path step as m t := Iff.rfl

@[simp] theorem singleton_iff : Path step [a] s t ↔ step a s t := by simp

theorem append_iff : Path step (as ++ bs) s t ↔ ∃ m, Path step as s m ∧ Path step bs m t := by
  induction as generalizing s with
  | nil => simp
  | cons a as ih =>
    simp only [List.cons_append, cons_iff, ih]
    constructor
    · rintro ⟨m, hstep, n, has, hbs⟩
      exact ⟨n, ⟨m, hstep, has⟩, hbs⟩
    · rintro ⟨n, ⟨m, hstep, has⟩, hbs⟩
      exact ⟨m, hstep, n, has, hbs⟩

theorem append {m : σ} (has : Path step as s m) (hbs : Path step bs m t) :
    Path step (as ++ bs) s t :=
  append_iff.2 ⟨m, has, hbs⟩

/-- Replace the step relation, on the labels that occur. -/
theorem mono (h : ∀ a ∈ as, ∀ s t, step a s t → step' a s t) (hp : Path step as s t) :
    Path step' as s t := by
  induction as generalizing s with
  | nil => exact hp
  | cons a as ih =>
    obtain ⟨m, hstep, hp⟩ := hp
    exact ⟨m, h a List.mem_cons_self s m hstep, ih (fun b hb ↦ h b (List.mem_cons_of_mem a hb)) hp⟩

/-- What every step keeps, the path keeps. -/
theorem invariant {P : σ → Prop} (h : ∀ a ∈ as, ∀ s t, step a s t → P s → P t)
    (hp : Path step as s t) (hs : P s) : P t := by
  induction as generalizing s with
  | nil => exact hp ▸ hs
  | cons a as ih =>
    obtain ⟨m, hstep, hp⟩ := hp
    exact ih (fun b hb ↦ h b (List.mem_cons_of_mem a hb)) hp (h a List.mem_cons_self s m hstep hs)

/-- A predicate that may speak of the labels passed so far: what every step carries over, with its
label added, the path carries over. -/
theorem invariant_of_prefix {P : List α → σ → Prop}
    (h : ∀ pre a post, as = pre ++ a :: post → ∀ s t, step a s t → P pre s → P (pre ++ [a]) t)
    (hp : Path step as s t) (hs : P [] s) : P as t := by
  suffices hgen : ∀ pre post s, as = pre ++ post → Path step post s t → P pre s → P as t from
    hgen [] as s rfl hp hs
  intro pre post
  induction post generalizing pre with
  | nil =>
    rintro s has rfl hs
    rwa [has, List.append_nil]
  | cons a post ih =>
    rintro s has ⟨m, hstep, hp⟩ hs
    exact ih (pre ++ [a]) m (by simpa using has) hp (h pre a post has s m hstep hs)

/-- A path along labels that are themselves expanded into lists. -/
theorem flatMap_iff {β : Type*} {f : β → List α} {bs : List β} :
    Path step (bs.flatMap f) s t ↔ Path (fun b ↦ Path step (f b)) bs s t := by
  induction bs generalizing s with
  | nil => simp
  | cons b bs ih => simp [append_iff, ih]

/-- A relation that is reflexive and transitive and holds of every step holds of the path. -/
theorem rel {R : σ → σ → Prop} (hrefl : ∀ s, R s s) (htrans : ∀ s t u, R s t → R t u → R s u)
    (h : ∀ a ∈ as, ∀ s t, step a s t → R s t) (hp : Path step as s t) : R s t :=
  invariant (P := R s) (fun a ha m n hstep hm ↦ htrans s m n hm (h a ha m n hstep)) hp (hrefl s)

/-- Labels that only test the state can be tested at the end, if no later label changes what they
test. -/
theorem gather {isMove : α → Bool} {test : α → σ → Prop}
    (htest : ∀ a ∈ as, isMove a = false → ∀ s t, step a s t ↔ test a s ∧ s = t)
    (hstable : as.Pairwise fun a b ↦
      isMove a = false → isMove b = true → ∀ s t, step b s t → (test a s ↔ test a t)) :
    Path step as s t ↔
      Path step (as.filter isMove) s t ∧ ∀ a ∈ as, isMove a = false → test a t := by
  induction as generalizing s with
  | nil => simp
  | cons a as ih =>
    rw [List.forall_mem_cons] at htest
    rw [List.pairwise_cons] at hstable
    have ih := fun s ↦ ih (s := s) htest.2 hstable.2
    rw [cons_iff, List.forall_mem_cons]
    cases hmove : isMove a with
    | true =>
      rw [List.filter_cons_of_pos hmove, cons_iff]
      simp only [ih]
      constructor
      · rintro ⟨m, hstep, hpath, htests⟩
        exact ⟨⟨m, hstep, hpath⟩, by simp, htests⟩
      · rintro ⟨⟨m, hstep, hpath⟩, -, htests⟩
        exact ⟨m, hstep, hpath, htests⟩
    | false =>
      rw [List.filter_cons_of_neg (by simp [hmove])]
      have hcarry (hpath : Path step (as.filter isMove) s t) : test a s ↔ test a t := by
        refine rel (R := fun s t ↦ (test a s ↔ test a t)) (fun _ ↦ Iff.rfl)
          (fun _ _ _ ↦ Iff.trans) (fun b hb m n hstep ↦ ?_) hpath
        rw [List.mem_filter] at hb
        exact hstable.1 b hb.1 hmove hb.2 m n hstep
      constructor
      · rintro ⟨m, hstep, hpath⟩
        obtain ⟨ha, rfl⟩ := (htest.1 hmove s m).1 hstep
        obtain ⟨hmoves, htests⟩ := (ih s).1 hpath
        exact ⟨hmoves, fun _ ↦ (hcarry hmoves).1 ha, htests⟩
      · rintro ⟨hmoves, ha, htests⟩
        exact ⟨s, (htest.1 hmove s s).2 ⟨(hcarry hmoves).2 (ha rfl), rfl⟩,
          (ih s).2 ⟨hmoves, htests⟩⟩

/-- A path whose labels can step from every state can be walked from every state. -/
theorem exists_of_total (h : ∀ a ∈ as, ∀ s, ∃ t, step a s t) (s : σ) : ∃ t, Path step as s t := by
  induction as generalizing s with
  | nil => exact ⟨s, rfl⟩
  | cons a as ih =>
    rw [List.forall_mem_cons] at h
    obtain ⟨m, hstep⟩ := h.1 s
    obtain ⟨t, hpath⟩ := ih h.2 m
    exact ⟨t, m, hstep, hpath⟩

end Path

end Library
