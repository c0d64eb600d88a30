import Mathlib.Data.List.Basic

/-!
# Splitting concatenations

A list that is known to be a concatenation, split at one of its elements: which part the element
comes from, and what stands before and after it. Runs of nested loops are such concatenations,
and a statement about one call of the innermost loop starts from such a split.
-/

namespace Library

variable {α β : Type*}

/-- Where an element of a concatenation comes from. -/
theorem flatMap_eq_append_cons {l : List α} {f : α → List β} {pre post : List β}
    {a : β} (h : l.flatMap f = pre ++ a :: post) :
    ∃ l₁ b l₂ as bs, l = l₁ ++ b :: l₂ ∧ f b = as ++ a :: bs ∧ pre = l₁.flatMap f ++ as ∧
      post = bs ++ l₂.flatMap f := by
  induction l generalizing pre with
  | nil => simp at h
  | cons b l ih =>
    rw [List.flatMap_cons, List.append_eq_append_iff] at h
    rcases h with ⟨mid, rfl, hrest⟩ | ⟨mid, hb, hrest⟩
    · obtain ⟨l₁, b', l₂, as, bs, rfl, hb', rfl, rfl⟩ := ih hrest
      exact ⟨b :: l₁, b', l₂, as, bs, by simp, hb', by simp, rfl⟩
    · cases mid with
      | nil =>
        obtain ⟨l₁, b', l₂, as, bs, rfl, hb', hnil, rfl⟩ := @ih [] hrest.symm
        obtain ⟨hl₁, rfl⟩ := List.append_eq_nil_iff.1 hnil.symm
        refine ⟨b :: l₁, b', l₂, [], bs, by simp, hb', ?_, rfl⟩
        simpa [hl₁] using hb.symm
      | cons a' mid =>
        obtain ⟨rfl, rfl⟩ := List.cons.inj hrest
        exact ⟨[], b, l, pre, mid, rfl, hb, by simp, rfl⟩

/-- Where an element of a repeated list comes from. -/
theorem flatten_replicate_eq_append_cons {k : ℕ} {l pre post : List α} {a : α}
    (h : (List.replicate k l).flatten = pre ++ a :: post) :
    ∃ i pre' post', pre = (List.replicate i l).flatten ++ pre' ∧ l = pre' ++ a :: post' := by
  induction k generalizing pre with
  | zero => simp at h
  | succ k ih =>
    rw [List.replicate_succ, List.flatten_cons, List.append_eq_append_iff] at h
    rcases h with ⟨mid, rfl, hrest⟩ | ⟨mid, hl, hrest⟩
    · obtain ⟨i, pre', post', rfl, hl⟩ := ih hrest
      exact ⟨i + 1, pre', post', by simp [List.replicate_succ], hl⟩
    · cases mid with
      | nil =>
        obtain ⟨i, pre', post', hnil, hl'⟩ := @ih [] hrest.symm
        obtain ⟨-, rfl⟩ := List.append_eq_nil_iff.1 hnil.symm
        exact ⟨1, [], post', by simpa using hl.symm, hl'⟩
      | cons a' mid =>
        obtain ⟨rfl, -⟩ := List.cons.inj hrest
        exact ⟨0, pre, mid, by simp, hl⟩

/-- An element that is not in the first part of a concatenation is in the second. -/
theorem append_eq_append_cons_of_notMem {l l' pre post : List α} {a : α} (ha : a ∉ l)
    (h : l ++ l' = pre ++ a :: post) : ∃ pre', pre = l ++ pre' ∧ l' = pre' ++ a :: post := by
  rcases List.append_eq_append_iff.1 h with ⟨mid, rfl, hl'⟩ | ⟨mid, rfl, hrest⟩
  · exact ⟨mid, rfl, hl'⟩
  · cases mid with
    | nil => exact ⟨[], by simp, hrest.symm⟩
    | cons a' mid =>
      obtain ⟨rfl, -⟩ := List.cons.inj hrest
      exact absurd (List.mem_append_right _ List.mem_cons_self) ha

end Library
