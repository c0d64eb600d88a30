import Mathlib.Data.List.Basic

/-!
# Screening candidates by what was learned

Candidates are tried in order until a judge accepts one. Judging is expensive, so what the judge
says of a rejected candidate is kept, and a later candidate that the kept knowledge screens out is
not judged at all.

Whether this loses a candidate depends on the knowledge alone. If knowledge of some kind screens
out only what the judge rejects, and the verdicts add knowledge of that kind only, then the search
finds the candidate that judging all of them would find (`search_eq_find?`).
-/

namespace Library

/-- A judge, what its verdicts teach, and what this screens out. -/
structure Screening (κ α ρ : Type*) where
  screens : κ → α → Bool
  judge : α → ρ
  accepts : ρ → Bool
  absorb : κ → ρ → κ

namespace Screening

variable {κ α ρ : Type*} (S : Screening κ α ρ)

/-- The first candidate that is neither screened out nor rejected. -/
def search : κ → List α → Option α
  | _, [] => none
  | knowledge, a :: as =>
    if S.screens knowledge a then search knowledge as
    else if S.accepts (S.judge a) then some a
    else search (S.absorb knowledge (S.judge a)) as

/-- What is known after a search that stops at the first accepted candidate. -/
def learn : κ → List α → κ
  | knowledge, [] => knowledge
  | knowledge, a :: as =>
    if S.screens knowledge a then learn knowledge as
    else if S.accepts (S.judge a) then knowledge
    else learn (S.absorb knowledge (S.judge a)) as

/-- The knowledge screens out no candidate that would be accepted. -/
def Spares (knowledge : κ) (a : α) : Prop :=
  S.screens knowledge a = true → S.accepts (S.judge a) = false

/-- Knowledge that has the property screens out only what is rejected, and keeps it whatever
rejected candidate is judged. -/
structure Invariant (as : List α) (P : κ → Prop) : Prop where
  spares : ∀ knowledge a, P knowledge → a ∈ as → S.Spares knowledge a
  absorb : ∀ knowledge a, P knowledge → a ∈ as → S.accepts (S.judge a) = false →
    P (S.absorb knowledge (S.judge a))

variable {S} {as : List α} {a : α} {P : κ → Prop} {knowledge : κ}

theorem Invariant.tail (h : S.Invariant (a :: as) P) : S.Invariant as P where
  spares knowledge b hknowledge hb := h.spares knowledge b hknowledge (List.mem_cons_of_mem a hb)
  absorb knowledge b hknowledge hb :=
    h.absorb knowledge b hknowledge (List.mem_cons_of_mem a hb)

/-- A search goes on with what was learned from the candidates before. -/
theorem search_append (as bs : List α) : S.search knowledge (as ++ bs) =
    (S.search knowledge as).or (S.search (S.learn knowledge as) bs) := by
  induction as generalizing knowledge with
  | nil => rfl
  | cons a as ih =>
    rw [List.cons_append, search, search, learn]
    split_ifs
    · exact ih
    · rfl
    · exact ih

/-- What is found is a candidate that is accepted. -/
theorem mem_of_search (h : S.search knowledge as = some a) :
    a ∈ as ∧ S.accepts (S.judge a) = true := by
  induction as generalizing knowledge with
  | nil => cases h
  | cons b as ih =>
    rw [search] at h
    split_ifs at h with hscreens haccepts
    · exact (ih h).imp_left (List.mem_cons_of_mem b)
    · obtain rfl := Option.some.inj h
      exact ⟨List.mem_cons_self, haccepts⟩
    · exact (ih h).imp_left (List.mem_cons_of_mem b)

/-- **Screening that spares what is accepted changes no result.** -/
theorem search_eq_find? (h : S.Invariant as P) (hknowledge : P knowledge) :
    S.search knowledge as = as.find? fun a ↦ S.accepts (S.judge a) := by
  induction as generalizing knowledge with
  | nil => rfl
  | cons a as ih =>
    rw [search, List.find?_cons]
    split_ifs with hscreens haccepts
    · rw [h.spares knowledge a hknowledge List.mem_cons_self hscreens]
      exact ih h.tail hknowledge
    · rw [haccepts]
    · have hrejected : S.accepts (S.judge a) = false := Bool.eq_false_iff.2 haccepts
      rw [hrejected]
      exact ih h.tail (h.absorb knowledge a hknowledge List.mem_cons_self hrejected)

end Screening

end Library
