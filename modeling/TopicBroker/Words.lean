import Mathlib.Data.List.TakeWhile
import Mathlib.Tactic.Common

/-!
Words of a list: the maximal runs without separators. `words` gives all of them at
once and `nextWord` peels off the first, consuming the one separator behind it, so
that a later call may use other separators. Both are described by `Split`, the
decomposition of a list around its first word.
-/
namespace TopicBroker.Words

variable {α : Type*}

def words (sep : α → Bool) (xs : List α) : List (List α) :=
  (xs.splitOnP sep).filter fun w => !w.isEmpty

/-- The first word, and what is behind the separator that ends it. -/
def nextWord (sep : α → Bool) (xs : List α) : Option (List α × List α) :=
  match xs.dropWhile sep with
  | [] => none
  | a :: rest =>
    some ((a :: rest).takeWhile (fun b => !sep b), ((a :: rest).dropWhile fun b => !sep b).tail)

/-- Separators, a word, and then nothing or a separator and more. -/
structure Split (sep : α → Bool) (gap w rest : List α) : Prop where
  gap : ∀ a ∈ gap, sep a = true
  nonempty : w ≠ []
  word : ∀ a ∈ w, sep a = false
  rest : ∀ a ∈ rest.head?, sep a = true

variable {sep : α → Bool} {gap w rest xs : List α}

/-- A list is separators only, or splits around its first word. -/
theorem exists_split (sep : α → Bool) (xs : List α) :
    (∀ a ∈ xs, sep a = true) ∨ ∃ gap w rest, xs = gap ++ w ++ rest ∧ Split sep gap w rest := by
  cases hdrop : xs.dropWhile sep with
  | nil => exact Or.inl (List.dropWhile_eq_nil_iff.mp hdrop)
  | cons a more =>
    have hhead : sep a = false := by
      have h := List.head_dropWhile_not sep (l := xs) (by rw [hdrop]; exact List.cons_ne_nil _ _)
      simpa only [hdrop, List.head_cons] using h
    refine Or.inr ⟨xs.takeWhile sep, (a :: more).takeWhile (fun b => !sep b),
      (a :: more).dropWhile (fun b => !sep b), ?_, ?_⟩
    · rw [List.append_assoc, List.takeWhile_append_dropWhile, ← hdrop,
        List.takeWhile_append_dropWhile]
    · exact {
        gap := fun b hb => List.mem_takeWhile_imp hb
        nonempty := by simp [hhead]
        word := fun b hb => by simpa using List.mem_takeWhile_imp hb
        rest := fun b hb => by
          cases hrest : (a :: more).dropWhile fun b => !sep b with
          | nil => simp [hrest] at hb
          | cons c tail =>
            have h := List.head_dropWhile_not (fun b => !sep b) (l := a :: more)
              (by rw [hrest]; exact List.cons_ne_nil _ _)
            simp only [hrest, List.head_cons, Bool.not_eq_false'] at h
            simp only [hrest, List.head?_cons, Option.mem_some_iff] at hb
            rw [← hb]
            exact h
      }

theorem nextWord_of_gap (h : ∀ a ∈ xs, sep a = true) : nextWord sep xs = none := by
  rw [nextWord, List.dropWhile_eq_nil_iff.mpr h]

theorem Split.nextWord_eq (h : Split sep gap w rest) :
    nextWord sep (gap ++ w ++ rest) = some (w, rest.tail) := by
  obtain ⟨a, more, rfl⟩ := List.exists_cons_of_ne_nil h.nonempty
  have ha : sep a = false := h.word a (List.mem_cons_self ..)
  have hword : ∀ b ∈ a :: more, (!sep b) = true := fun b hb => by rw [h.word b hb]; rfl
  have hdrop : (gap ++ (a :: more) ++ rest).dropWhile sep = a :: (more ++ rest) := by
    rw [List.append_assoc, List.dropWhile_append_of_pos h.gap, List.cons_append,
      List.dropWhile_cons_of_neg (by simp [ha])]
  have hend : rest.takeWhile (fun b => !sep b) = [] ∧ rest.dropWhile (fun b => !sep b) = rest := by
    cases rest with
    | nil => exact ⟨rfl, rfl⟩
    | cons c tail =>
      have hc : sep c = true := h.rest c rfl
      simp [hc]
  rw [nextWord, hdrop, ← List.cons_append]
  change some (((a :: more) ++ rest).takeWhile (fun b => !sep b),
    (((a :: more) ++ rest).dropWhile fun b => !sep b).tail) = _
  rw [List.takeWhile_append_of_pos hword, List.dropWhile_append_of_pos hword, hend.1, hend.2,
    List.append_nil]

theorem nextWord_eq_some {r : List α} (h : nextWord sep xs = some (w, r)) :
    ∃ gap rest, xs = gap ++ w ++ rest ∧ Split sep gap w rest ∧ r = rest.tail := by
  rcases exists_split sep xs with hgap | ⟨gap, w', rest, rfl, hsplit⟩
  · rw [nextWord_of_gap hgap] at h
    cases h
  · rw [hsplit.nextWord_eq] at h
    cases h
    exact ⟨gap, rest, rfl, hsplit, rfl⟩

/-- The word and the rest are parts of the list. -/
theorem nextWord_sublist {r : List α} (h : nextWord sep xs = some (w, r)) :
    w.Sublist xs ∧ r.Sublist xs := by
  obtain ⟨gap, rest, rfl, _, rfl⟩ := nextWord_eq_some h
  constructor
  · exact (List.sublist_append_right gap w).trans (List.sublist_append_left _ rest)
  · exact (List.tail_sublist rest).trans (List.sublist_append_right _ rest)

theorem words_cons_of_sep {a : α} (ha : sep a = true) (xs : List α) :
    words sep (a :: xs) = words sep xs := by
  rw [words, List.splitOnP_cons_eq_if_modifyHead, if_pos ha, words]
  rfl

theorem words_append_of_gap (h : ∀ a ∈ gap, sep a = true) (xs : List α) :
    words sep (gap ++ xs) = words sep xs := by
  induction gap with
  | nil => rfl
  | cons a gap ih =>
    rw [List.forall_mem_cons] at h
    rw [List.cons_append, words_cons_of_sep h.1, ih h.2]

theorem words_of_gap (h : ∀ a ∈ xs, sep a = true) : words sep xs = [] := by
  have hall := words_append_of_gap h []
  rw [List.append_nil] at hall
  rw [hall]
  rfl

theorem Split.words_eq (h : Split sep gap w rest) :
    words sep (gap ++ w ++ rest) = w :: words sep rest.tail := by
  have hfirst : w.isEmpty = false := by simpa using h.nonempty
  rw [List.append_assoc, words_append_of_gap h.gap]
  cases rest with
  | nil =>
    rw [List.append_nil, words, List.splitOnP_eq_singleton h.word]
    simp only [List.filter_cons, hfirst, Bool.not_false, if_true]
    rfl
  | cons c tail =>
    have hc : sep c = true := h.rest c rfl
    rw [words, List.splitOnP_append_cons_of_forall_mem h.word c hc]
    simp only [List.filter_cons, hfirst, Bool.not_false, if_true]
    rfl

theorem words_eq_nil (h : words sep xs = []) : ∀ a ∈ xs, sep a = true := by
  rcases exists_split sep xs with hgap | ⟨gap, w, rest, rfl, hsplit⟩
  · exact hgap
  · rw [hsplit.words_eq] at h
    cases h

theorem words_eq_cons {ws : List (List α)} (h : words sep xs = w :: ws) :
    ∃ gap rest, xs = gap ++ w ++ rest ∧ Split sep gap w rest ∧ words sep rest.tail = ws := by
  rcases exists_split sep xs with hgap | ⟨gap, w', rest, rfl, hsplit⟩
  · rw [words_of_gap hgap] at h
    cases h
  · rw [hsplit.words_eq, List.cons.injEq] at h
    obtain ⟨rfl, hws⟩ := h
    exact ⟨gap, rest, rfl, hsplit, hws⟩

/-- Every element is a separator or in a word. -/
theorem mem_words (sep : α → Bool) {a : α} (ha : a ∈ xs) : sep a = true ∨ ∃ w ∈ words sep xs, a ∈ w := by
  induction hn : xs.length using Nat.strong_induction_on generalizing xs with
  | _ n ih =>
    rcases exists_split sep xs with hgap | ⟨gap, w, rest, rfl, hsplit⟩
    · exact Or.inl (hgap a ha)
    · rw [hsplit.words_eq]
      rcases List.mem_append.mp ha with hfront | hrest
      · rcases List.mem_append.mp hfront with hgap | hw
        · exact Or.inl (hsplit.gap a hgap)
        · exact Or.inr ⟨w, List.mem_cons_self .., hw⟩
      · cases rest with
        | nil => cases hrest
        | cons c tail =>
          rcases List.mem_cons.mp hrest with rfl | htail
          · exact Or.inl (hsplit.rest a rfl)
          · have hlen : tail.length < n := by
              rw [← hn, List.length_append, List.length_cons]
              omega
            rcases ih _ hlen htail rfl with hsep | ⟨v, hv, hav⟩
            · exact Or.inl hsep
            · exact Or.inr ⟨v, List.mem_cons_of_mem w hv, hav⟩

end TopicBroker.Words
