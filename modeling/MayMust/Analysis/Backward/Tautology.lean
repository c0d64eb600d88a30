import MayMust.Formula.SortRules

/-!
# Trivial candidates

`is_tautology` recognises formulas that hold in every state by their shape: a comparison of a term
with itself, and two comparisons of the same terms of which one always holds. It compares the terms
as they are printed, which is as terms.

Nothing is computed, so the partial operators and the memory reads inside the terms do not matter.
All that is used is that the two sides of a comparison are numbers of one sort, integers or reals,
and so are ordered (`exists_numbers`).
-/

namespace MayMust

/-! ### The check -/

/-- `atoms_cover_all_integers`. -/
def atomsCoverAllIntegers : Formula → Formula → Bool
  | .lt a b, .ge c d | .ge a b, .lt c d | .le a b, .gt c d | .gt a b, .le c d =>
    decide (a = c ∧ b = d)
  | .le a b, .le c d | .ge a b, .ge c d => decide (a = d ∧ b = c)
  | _, _ => false

/-- Whether some item and a later one cover all integers. -/
def someTwoCoverAllIntegers : List Formula → Bool
  | [] => false
  | item :: rest => rest.any (atomsCoverAllIntegers item) || someTwoCoverAllIntegers rest

mutual

/-- `is_tautology`. -/
def isTautology : Formula → Bool
  | .le a b | .ge a b | .eq a b => decide (a = b)
  | .and items => allTautologies items
  | .or items => anyTautology items || someTwoCoverAllIntegers items
  | .tru | .fls | .var _ | .not _ | .implies _ _ | .memoryEq _ _ | .lt _ _ | .gt _ _ => false
termination_by structural f => f

/-- Whether all items are tautologies. -/
def allTautologies : List Formula → Bool
  | [] => true
  | item :: rest => isTautology item && allTautologies rest
termination_by structural items => items

/-- Whether some item is a tautology. -/
def anyTautology : List Formula → Bool
  | [] => false
  | item :: rest => isTautology item || anyTautology rest
termination_by structural items => items

end

example : isTautology (.or [.boolVar "p", .lt (.int 1) (.int 0), .ge (.int 1) (.int 0)]) = true := by
  decide

/-! ### Comparisons -/

section Comparisons

variable {s : State} {t u : Term} {σ : VarSort}

/-- Two terms of one numeric sort are two integers or two reals. -/
theorem exists_numbers (ht : t.HasSort σ) (hu : u.HasSort σ) (hσ : σ ≠ .bool) (s : State) :
    (∃ m n, t.eval s = .int m ∧ u.eval s = .int n) ∨
      ∃ x y, t.eval s = .real x ∧ u.eval s = .real y := by
  have hnumber : (t.eval s).sort ≠ .bool := by rwa [t.sort_eval s (t.sort_eq_ok_iff.2 ht)]
  have hsame : (t.eval s).sort = (u.eval s).sort := by
    rw [t.sort_eval s (t.sort_eq_ok_iff.2 ht), u.sort_eval s (u.sort_eq_ok_iff.2 hu)]
  cases hteval : t.eval s with
  | bool b =>
    rw [hteval] at hnumber
    exact absurd rfl hnumber
  | int m =>
    cases hueval : u.eval s with
    | int n => exact .inl ⟨m, n, rfl, rfl⟩
    | bool b | real x =>
      rw [hteval, hueval] at hsame
      cases hsame
  | real x =>
    cases hueval : u.eval s with
    | real y => exact .inr ⟨x, y, rfl, rfl⟩
    | bool b | int n =>
      rw [hteval, hueval] at hsame
      cases hsame

variable (s)

/-- A comparison of one of two numbers with itself, and of the two numbers with each other. -/
theorem holds_comparisons (h : ∃ σ, t.HasSort σ ∧ u.HasSort σ ∧ σ ≠ .bool) :
    ((Formula.le t t).Holds s ∧ (Formula.ge t t).Holds s ∧ (Formula.eq t t).Holds s) ∧
      ((Formula.lt t u).Holds s ∨ (Formula.ge t u).Holds s) ∧
      ((Formula.le t u).Holds s ∨ (Formula.gt t u).Holds s) ∧
      ((Formula.le t u).Holds s ∨ (Formula.le u t).Holds s) ∧
      ((Formula.ge t u).Holds s ∨ (Formula.ge u t).Holds s) := by
  obtain ⟨σ, ht, hu, hσ⟩ := h
  rcases exists_numbers ht hu hσ s with ⟨m, n, hm, hn⟩ | ⟨x, y, hx, hy⟩
  · simp [Formula.Holds, Formula.eval, Value.compare, hm, hn, lt_or_ge, le_or_gt, le_total]
  · simp [Formula.Holds, Formula.eval, Value.compare, hx, hy, lt_or_ge, le_or_gt, le_total]

end Comparisons

/-! ### What the check recognises -/

section Sound

variable {φ ψ : Formula} {items : List Formula} (s : State)

/-- The two sides of a comparison are numbers of one sort. -/
theorem holds_or_of_atomsCoverAllIntegers (h : atomsCoverAllIntegers φ ψ = true)
    (hφ : φ.WellFormed) : φ.Holds s ∨ ψ.Holds s := by
  cases φ with
  | lt a b | gt a b | le a b | ge a b =>
    rw [Formula.WellFormed] at hφ
    obtain ⟨-, hltge, hlegt, hlele, hgege⟩ := holds_comparisons s hφ
    cases ψ <;> simp only [atomsCoverAllIntegers, decide_eq_true_eq, Bool.false_eq_true] at h
    all_goals
      obtain ⟨rfl, rfl⟩ := h
      first | assumption | exact Or.symm (by assumption)
  | _ => cases h

theorem exists_holds_of_someTwoCoverAllIntegers (h : someTwoCoverAllIntegers items = true)
    (hitems : Formula.WellFormedList items) : ∃ φ ∈ items, φ.Holds s := by
  induction items with
  | nil => cases h
  | cons item rest ih =>
    rw [Formula.WellFormedList] at hitems
    rw [someTwoCoverAllIntegers, Bool.or_eq_true, List.any_eq_true] at h
    rcases h with ⟨ψ, hψ, hcover⟩ | hrest
    · rcases holds_or_of_atomsCoverAllIntegers s hcover hitems.1 with hitem | hholds
      · exact ⟨item, List.mem_cons_self, hitem⟩
      · exact ⟨ψ, List.mem_cons_of_mem item hψ, hholds⟩
    · obtain ⟨φ, hφ, hholds⟩ := ih hrest hitems.2
      exact ⟨φ, List.mem_cons_of_mem item hφ, hholds⟩

mutual

theorem holds_of_isTautology_of_wellFormed : ∀ φ : Formula, isTautology φ = true →
    φ.WellFormed → φ.Holds s
  | .le a b, h, hφ | .ge a b, h, hφ | .eq a b, h, hφ => by
    rw [Formula.WellFormed] at hφ
    obtain rfl : a = b := of_decide_eq_true h
    obtain ⟨⟨hle, hge, heq⟩, -⟩ := holds_comparisons s hφ
    assumption
  | .and items, h, hφ => by
    rw [Formula.WellFormed] at hφ
    exact (Formula.holds_and s items).2 (forall_holds_of_allTautologies items h hφ)
  | .or items, h, hφ => by
    rw [Formula.WellFormed] at hφ
    refine (Formula.holds_or s items).2 ?_
    rcases Bool.or_eq_true_iff.1 h with hany | hcover
    · exact exists_holds_of_anyTautology items hany hφ
    · exact exists_holds_of_someTwoCoverAllIntegers s hcover hφ
  | .tru, h, _ | .fls, h, _ | .var _, h, _ | .not _, h, _ | .implies _ _, h, _
  | .memoryEq _ _, h, _ | .lt _ _, h, _ | .gt _ _, h, _ => by cases h

theorem forall_holds_of_allTautologies : ∀ items : List Formula, allTautologies items = true →
    Formula.WellFormedList items → ∀ φ ∈ items, φ.Holds s
  | [], _, _ => fun φ hφ ↦ absurd hφ List.not_mem_nil
  | item :: rest, h, hitems => by
    rw [Formula.WellFormedList] at hitems
    obtain ⟨hitem, hrest⟩ := Bool.and_eq_true_iff.1 h
    exact List.forall_mem_cons.2 ⟨holds_of_isTautology_of_wellFormed item hitem hitems.1,
      forall_holds_of_allTautologies rest hrest hitems.2⟩

theorem exists_holds_of_anyTautology : ∀ items : List Formula, anyTautology items = true →
    Formula.WellFormedList items → ∃ φ ∈ items, φ.Holds s
  | [], h, _ => by cases h
  | item :: rest, h, hitems => by
    rw [Formula.WellFormedList] at hitems
    rcases Bool.or_eq_true_iff.1 h with hitem | hrest
    · exact ⟨item, List.mem_cons_self, holds_of_isTautology_of_wellFormed item hitem hitems.1⟩
    · obtain ⟨φ, hφ, hholds⟩ := exists_holds_of_anyTautology rest hrest hitems.2
      exact ⟨φ, List.mem_cons_of_mem item hφ, hholds⟩

end

end Sound

/-- **A formula that is found trivial holds in every state**, if the sort checker accepts it. -/
theorem holds_of_isTautology {φ : Formula} (hvalidated : φ.Validated) (h : isTautology φ = true)
    (s : State) : φ.Holds s :=
  holds_of_isTautology_of_wellFormed s φ h (φ.validated_iff_wellFormed.1 hvalidated)

/-- A quotient with the divisor zero and a memory read: their values do not matter. -/
def quotientOrMore : Formula :=
  .or [.lt (.div (.var (.int "x")) (.int 0)) (.select (.var "a") (.int 1)),
    .ge (.div (.var (.int "x")) (.int 0)) (.select (.var "a") (.int 1))]

theorem holds_of_isTautology_quotientOrMore : quotientOrMore.Holds State.zero :=
  @holds_of_isTautology quotientOrMore rfl rfl State.zero

end MayMust
