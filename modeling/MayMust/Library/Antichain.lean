import Mathlib.Data.List.Pairwise
import Mathlib.Tactic.SplitIfs
import MayMust.Library.Fallible

/-!
# Antichains of entries under subsumption

A collection that keeps only entries no other entry covers: a newcomer that an entry covers is
ignored, and the entries a kept newcomer covers are dropped. The check whether one entry covers
another may fail. Then nothing is decided, and where the check fails while entries are being
dropped, all of them are gone.

For a reflexive and transitive relation `covers` that the check decides, merging is `absorb`,
which keeps an antichain (`pairwise_foldl_absorb`) and loses no coverage
(`exists_covers_foldl_absorb`): whatever some merged entry covers, some kept entry covers.
-/

namespace Library

variable {α ε : Type*}

/-! ### The loops -/

section Loops

variable (check : α → α → Except ε Bool) (new : α)

/-- Whether some entry covers the newcomer; the first one that does ends the search. -/
def coveredBy : List α → Except ε Bool
  | [] => .ok false
  | old :: rest =>
    match check old new with
    | .error e => .error e
    | .ok true => .ok true
    | .ok false => coveredBy rest

/-- The entries that the newcomer does not cover. -/
def retainUncovered : List α → Except ε (List α)
  | [] => .ok []
  | old :: rest =>
    match check new old with
    | .error e => .error e
    | .ok covered =>
      match retainUncovered rest with
      | .error e => .error e
      | .ok kept => .ok (if covered then kept else old :: kept)

/-- Merge a newcomer into the entries; the result says whether it was kept. Entries are moved out
while they are compared with the newcomer, so an error there leaves none behind. -/
def mergeEntry (entries : List α) : List α × Except ε Bool :=
  match coveredBy check new entries with
  | .error e => (entries, .error e)
  | .ok true => (entries, .ok false)
  | .ok false =>
    match retainUncovered check new entries with
    | .error e => ([], .error e)
    | .ok kept => (kept ++ [new], .ok true)

end Loops

/-! ### The collection of maximal entries -/

section Absorb

variable {covers : α → α → Prop} {entries : List α} {new : α}

open Classical in
/-- The entries after a newcomer: unchanged if one of them covers it, otherwise without the ones
it covers and with it. -/
noncomputable def absorb (covers : α → α → Prop) (entries : List α) (new : α) : List α :=
  if ∃ old ∈ entries, covers old new then entries
  else entries.filter (fun old ↦ ¬ covers new old) ++ [new]

/-- Neither entry covers the other. -/
def Incomparable (covers : α → α → Prop) (a b : α) : Prop := ¬ covers a b ∧ ¬ covers b a

theorem mem_absorb {a : α} (h : a ∈ absorb covers entries new) : a ∈ entries ∨ a = new := by
  classical
  rw [absorb] at h
  split_ifs at h
  · exact Or.inl h
  · rcases List.mem_append.1 h with h | h
    · exact Or.inl (List.mem_filter.1 h).1
    · exact Or.inr (List.mem_singleton.1 h)

/-- A newcomer keeps the entries pairwise incomparable. -/
theorem pairwise_absorb (h : entries.Pairwise (Incomparable covers)) :
    (absorb covers entries new).Pairwise (Incomparable covers) := by
  classical
  rw [absorb]
  split_ifs with hcovered
  · exact h
  refine List.pairwise_append.2 ⟨h.filter _, List.pairwise_singleton _ _, fun a ha b hb ↦ ?_⟩
  obtain rfl := List.mem_singleton.1 hb
  obtain ⟨ha, hab⟩ := List.mem_filter.1 ha
  have hba : ¬ covers b a := by simpa using hab
  exact ⟨fun hab ↦ hcovered ⟨a, ha, hab⟩, hba⟩

/-- A newcomer adds what it covers, and nothing is lost. -/
theorem exists_covers_absorb {β : Type*} {covers' : α → β → Prop} {b : β}
    (htrans : ∀ a ∈ entries, (covers a new → covers' new b → covers' a b) ∧
      (covers new a → covers' a b → covers' new b)) :
    (∃ a ∈ absorb covers entries new, covers' a b) ↔
      (∃ a ∈ entries, covers' a b) ∨ covers' new b := by
  classical
  rw [absorb]
  split_ifs with hcovered
  · refine ⟨Or.inl, fun h ↦ h.elim id fun hnew ↦ ?_⟩
    obtain ⟨old, hold, hcov⟩ := hcovered
    exact ⟨old, hold, (htrans old hold).1 hcov hnew⟩
  constructor
  · rintro ⟨a, ha, hab⟩
    rcases List.mem_append.1 ha with ha | ha
    · exact Or.inl ⟨a, (List.mem_filter.1 ha).1, hab⟩
    · exact Or.inr (List.mem_singleton.1 ha ▸ hab)
  · rintro (⟨a, ha, hab⟩ | hnew)
    · by_cases hdropped : covers new a
      -- A dropped entry is covered by the newcomer, which covers what the entry did.
      · exact ⟨new, by simp, (htrans a ha).2 hdropped hab⟩
      · exact ⟨a, List.mem_append_left _ (List.mem_filter.2 ⟨ha, by simpa using hdropped⟩), hab⟩
    · exact ⟨new, by simp, hnew⟩

theorem mem_foldl_absorb {news : List α} {a : α} (h : a ∈ news.foldl (absorb covers) entries) :
    a ∈ entries ∨ a ∈ news := by
  induction news generalizing entries with
  | nil => exact Or.inl h
  | cons new news ih =>
    rcases ih h with h | h
    · exact (mem_absorb h).imp_right fun (h : a = new) ↦ by simp [h]
    · exact Or.inr (List.mem_cons_of_mem new h)

/-- **Merging keeps an antichain.** -/
theorem pairwise_foldl_absorb (news : List α) (h : entries.Pairwise (Incomparable covers)) :
    (news.foldl (absorb covers) entries).Pairwise (Incomparable covers) := by
  induction news generalizing entries with
  | nil => exact h
  | cons new news ih => exact ih (pairwise_absorb h)

/-- **Merging loses no coverage.** What is covered after a history of newcomers is what an
initial entry or some newcomer covers. -/
theorem exists_covers_foldl_absorb {β : Type*} {covers' : α → β → Prop} {b : β} {news : List α}
    (htrans : ∀ a ∈ entries ++ news, ∀ a' ∈ entries ++ news,
      covers a a' → covers' a' b → covers' a b) :
    (∃ a ∈ news.foldl (absorb covers) entries, covers' a b) ↔
      ∃ a ∈ entries ++ news, covers' a b := by
  induction news generalizing entries with
  | nil => simp
  | cons new news ih =>
    have hmem {a : α} (ha : a ∈ absorb covers entries new ++ news) : a ∈ entries ++ new ::
      news := by
      rcases List.mem_append.1 ha with ha | ha
      · rcases mem_absorb ha with ha | rfl
        · exact List.mem_append_left _ ha
        · simp
      · exact List.mem_append_right _ (List.mem_cons_of_mem new ha)
    have hentry {a : α} (ha : a ∈ entries) : a ∈ entries ++ new :: news :=
      List.mem_append_left _ ha
    have hnew : new ∈ entries ++ new :: news := by simp
    have habsorb : (∃ a ∈ absorb covers entries new, covers' a b) ↔
        (∃ a ∈ entries, covers' a b) ∨ covers' new b :=
      exists_covers_absorb fun a ha ↦ ⟨htrans a (hentry ha) new hnew, htrans new hnew a (hentry ha)⟩
    rw [List.foldl_cons, ih fun a ha a' ha' ↦ htrans a (hmem ha) a' (hmem ha')]
    simp only [List.mem_append, or_and_right, exists_or, List.mem_cons, exists_eq_left] at habsorb ⊢
    rw [habsorb, or_assoc]

/-! ### The loops decide the collection -/

variable {check : α → α → Except ε Bool}

/-- The check answers, and its answer is the relation. -/
def Decides (check : α → α → Except ε Bool) (covers : α → α → Prop) (a b : α) : Prop :=
  ∃ answer, check a b = .ok answer ∧ (answer = true ↔ covers a b)

theorem coveredBy_eq_ok (h : ∀ a ∈ entries, Decides check covers a new) :
    ∃ answer, coveredBy check new entries = .ok answer ∧
      (answer = true ↔ ∃ a ∈ entries, covers a new) := by
  induction entries with
  | nil => exact ⟨false, rfl, by simp⟩
  | cons old rest ih =>
    rw [List.forall_mem_cons] at h
    obtain ⟨answer, hanswer, hiff⟩ := h.1
    cases answer with
    | true => exact ⟨true, by simp [coveredBy, hanswer], by simp [hiff.1 rfl]⟩
    | false =>
      obtain ⟨answer, hrest, hrestiff⟩ := ih h.2
      have hnot : ¬ covers old new := fun hc ↦ Bool.false_ne_true (hiff.2 hc)
      exact ⟨answer, by simp [coveredBy, hanswer, hrest], by simp [hrestiff, hnot]⟩

open Classical in
theorem retainUncovered_eq_ok (h : ∀ a ∈ entries, Decides check covers new a) :
    retainUncovered check new entries = .ok (entries.filter fun a ↦ ¬ covers new a) := by
  induction entries with
  | nil => rfl
  | cons old rest ih =>
    rw [List.forall_mem_cons] at h
    obtain ⟨answer, hanswer, hiff⟩ := h.1
    cases answer with
    | true => simp [retainUncovered, hanswer, ih h.2, hiff.1 rfl]
    | false =>
      have hnot : ¬ covers new old := fun hc ↦ Bool.false_ne_true (hiff.2 hc)
      simp [retainUncovered, hanswer, ih h.2, hnot]

/-- Where the check decides the relation, merging is `absorb`. -/
theorem mergeEntry_fst (h : ∀ a ∈ entries, Decides check covers a new)
    (h' : ∀ a ∈ entries, Decides check covers new a) :
    (mergeEntry check new entries).1 = absorb covers entries new := by
  classical
  obtain ⟨answer, hanswer, hiff⟩ := coveredBy_eq_ok h
  cases answer with
  | true => simp [mergeEntry, hanswer, absorb, hiff.1 rfl]
  | false =>
    have hnot : ¬ ∃ a ∈ entries, covers a new := fun hc ↦ Bool.false_ne_true (hiff.2 hc)
    simp only [mergeEntry, hanswer, retainUncovered_eq_ok h', absorb, if_neg hnot]

/-- Whatever the check answers, merging brings in nothing but the newcomer. -/
theorem mem_mergeEntry {a : α} (h : a ∈ (mergeEntry check new entries).1) :
    a ∈ entries ∨ a = new := by
  have hkept {entries kept : List α} (hretain : retainUncovered check new entries = .ok kept)
      (ha : a ∈ kept) : a ∈ entries := by
    induction entries generalizing kept with
    | nil =>
      obtain rfl := Except.ok.inj hretain
      exact ha
    | cons old rest ih =>
      rw [retainUncovered] at hretain
      split at hretain
      · cases hretain
      split at hretain
      · cases hretain
      · rename_i covered _ kept' hrest
        obtain rfl := Except.ok.inj hretain
        split at ha
        · exact List.mem_cons_of_mem _ (ih hrest ha)
        · rcases List.mem_cons.1 ha with rfl | ha
          · exact List.mem_cons_self
          · exact List.mem_cons_of_mem _ (ih hrest ha)
  rw [mergeEntry] at h
  split at h
  · exact Or.inl h
  · exact Or.inl h
  split at h
  · exact absurd h List.not_mem_nil
  · rename_i kept hretain
    rcases List.mem_append.1 h with h | h
    · exact Or.inl (hkept hretain h)
    · exact Or.inr (List.mem_singleton.1 h)

/-- A whole history of merges is a fold of `absorb`. -/
theorem foldl_mergeEntry_fst {news : List α}
    (h : ∀ a ∈ entries ++ news, ∀ b ∈ entries ++ news, Decides check covers a b) :
    news.foldl (fun entries new ↦ (mergeEntry check new entries).1) entries =
      news.foldl (absorb covers) entries := by
  induction news generalizing entries with
  | nil => rfl
  | cons new news ih =>
    have hnew : new ∈ entries ++ new :: news := by simp
    have hentry {a : α} (ha : a ∈ entries) : a ∈ entries ++ new :: news :=
      List.mem_append_left _ ha
    rw [List.foldl_cons, List.foldl_cons, mergeEntry_fst (fun a ha ↦ h a (hentry ha) new hnew)
      fun a ha ↦ h new hnew a (hentry ha)]
    refine ih fun a ha b hb ↦ h a ?_ b ?_
    · rcases List.mem_append.1 ha with ha | ha
      · rcases mem_absorb ha with ha | rfl
        · exact hentry ha
        · exact hnew
      · simp [ha]
    · rcases List.mem_append.1 hb with hb | hb
      · rcases mem_absorb hb with hb | rfl
        · exact hentry hb
        · exact hnew
      · simp [hb]

end Absorb

/-! ### Failing checks -/

section Failure

variable {check : α → α → Except ε Bool} {entries : List α} {new : α}

/-- The check answers for the two entries. -/
def Answers (check : α → α → Except ε Bool) (a b : α) : Prop := ∃ answer, check a b = .ok answer

theorem coveredBy_eq_ok_false_iff :
    coveredBy check new entries = .ok false ↔ ∀ old ∈ entries, check old new = .ok false := by
  induction entries with
  | nil => simp [coveredBy]
  | cons old rest ih =>
    rw [coveredBy, List.forall_mem_cons, ← ih]
    split
    · rename_i hcheck; simp [hcheck]
    · rename_i hcheck; simp [hcheck]
    · rename_i hcheck; simp [hcheck]

theorem exists_retainUncovered_eq_ok_iff :
    (∃ kept, retainUncovered check new entries = .ok kept) ↔
      ∀ old ∈ entries, Answers check new old := by
  induction entries with
  | nil => simp [retainUncovered]
  | cons old rest ih =>
    rw [retainUncovered, List.forall_mem_cons, ← ih]
    split
    · rename_i hcheck; simp [Answers, hcheck]
    · rename_i covered hcheck
      split
      · rename_i hrest; simp [hrest]
      · rename_i hrest; simp [Answers, hcheck, hrest]

/-- **What an error of a merge leaves behind.** It leaves the entries as they were exactly when
no check fails while entries are being dropped, that is, after all of them were found not to
cover the newcomer. -/
theorem mergeEntry_keeps_iff :
    (∀ e, (mergeEntry check new entries).2 = .error e →
      (mergeEntry check new entries).1 = entries) ↔
    ((∀ old ∈ entries, check old new = .ok false) → ∀ old ∈ entries, Answers check new old) := by
  rw [← coveredBy_eq_ok_false_iff, ← exists_retainUncovered_eq_ok_iff, mergeEntry]
  split
  · rename_i hcovered; simp [hcovered]
  · rename_i hcovered; simp [hcovered]
  rename_i hcovered
  split
  · rename_i e hretain
    -- A check can only have failed on an entry, so the emptied list is another one.
    have hne : ([] : List α) ≠ entries := by
      rintro rfl
      rw [retainUncovered] at hretain
      exact absurd hretain (by simp)
    simp [hcovered, hretain, hne]
  · rename_i hretain; simp [hretain]

end Failure

end Library
