import Mathlib.Data.List.Forall2
import Mathlib.Tactic.Common

/-!
Two divisions of one stream into pieces. Some letters are marked, and every piece
of either division begins with a marked letter. If the pieces of one division have
no fewer marked letters than the corresponding pieces of the other, the divisions
are the same: as many marked letters lie before every cut. Pieces of equal lengths are
the same without marks.
-/
namespace TopicBroker.Divisions

variable {α : Type*} (marked : α → Bool)

/-- The piece begins with a marked letter. -/
def Led (piece : List α) : Prop := ∃ a rest, piece = a :: rest ∧ marked a = true

variable {marked} {xs ys : List (List α)}

theorem led_flatten (h : ∀ x ∈ xs, Led marked x) : xs.flatten = [] ∨ Led marked xs.flatten := by
  cases xs with
  | nil => exact Or.inl rfl
  | cons x xs =>
    obtain ⟨a, rest, rfl, ha⟩ := h x (List.mem_cons_self ..)
    exact Or.inr ⟨a, rest ++ xs.flatten, rfl, ha⟩

/-- A piece that goes on without marked letters goes on with nothing. -/
private theorem rest_eq_nil {rest stream tail : List α} (hcount : rest.countP marked = 0)
    (hstream : stream = rest ++ tail) (hled : stream = [] ∨ Led marked stream) : rest = [] := by
  cases rest with
  | nil => rfl
  | cons b rest =>
    rcases hled with hnil | ⟨a, more, hstart, ha⟩
    · rw [hnil] at hstream
      cases hstream
    · rw [hstart, List.cons_append, List.cons.injEq] at hstream
      have hzero := List.countP_eq_zero.mp hcount b (List.mem_cons_self ..)
      rw [← hstream.1] at hzero
      exact absurd ha hzero

theorem first_eq {x y rest rest' : List α} (hflat : x ++ rest = y ++ rest')
    (hcount : x.countP marked = y.countP marked) (hrest : rest = [] ∨ Led marked rest)
    (hrest' : rest' = [] ∨ Led marked rest') : x = y := by
  rcases List.append_eq_append_iff.mp hflat with ⟨z, rfl, hz⟩ | ⟨z, rfl, hz⟩
  · rw [List.countP_append] at hcount
    rw [rest_eq_nil (by omega) hz hrest, List.append_nil]
  · rw [List.countP_append] at hcount
    rw [rest_eq_nil (by omega) hz hrest', List.append_nil]

/-- Pieces with equal numbers of marked letters are equal. -/
theorem pieces_eq (hcount : List.Forall₂ (fun x y => x.countP marked = y.countP marked) xs ys)
    (hflat : xs.flatten = ys.flatten) (hxs : ∀ x ∈ xs, Led marked x)
    (hys : ∀ y ∈ ys, Led marked y) : xs = ys := by
  induction hcount with
  | nil => rfl
  | @cons x y xs ys hxy _ ih =>
    have hxs' : ∀ z ∈ xs, Led marked z := fun z hz => hxs z (List.mem_cons_of_mem x hz)
    have hys' : ∀ z ∈ ys, Led marked z := fun z hz => hys z (List.mem_cons_of_mem y hz)
    rw [List.flatten_cons, List.flatten_cons] at hflat
    have hfirst := first_eq hflat hxy (led_flatten hxs') (led_flatten hys')
    subst hfirst
    rw [ih (List.append_cancel_left hflat) hxs' hys']

private theorem count_flatten_le
    (h : List.Forall₂ (fun x y => y.countP marked ≤ x.countP marked) xs ys) :
    ys.flatten.countP marked ≤ xs.flatten.countP marked := by
  induction h with
  | nil => exact Nat.le_refl _
  | cons hxy _ ih =>
    rw [List.flatten_cons, List.flatten_cons, List.countP_append, List.countP_append]
    omega

/-- Numbers of marked letters that are not smaller and have the same sum are equal. -/
theorem counts_eq (h : List.Forall₂ (fun x y => y.countP marked ≤ x.countP marked) xs ys)
    (hsum : xs.flatten.countP marked = ys.flatten.countP marked) :
    List.Forall₂ (fun x y => x.countP marked = y.countP marked) xs ys := by
  induction h with
  | nil => exact List.Forall₂.nil
  | cons hxy htail ih =>
    rw [List.flatten_cons, List.flatten_cons, List.countP_append, List.countP_append] at hsum
    have hle := count_flatten_le htail
    exact List.Forall₂.cons (by omega) (ih (by omega))

/-- One division whose pieces have no fewer marked letters is the other one. -/
theorem pieces_eq_of_count_le
    (h : List.Forall₂ (fun x y => y.countP marked ≤ x.countP marked) xs ys)
    (hflat : xs.flatten = ys.flatten) (hxs : ∀ x ∈ xs, Led marked x)
    (hys : ∀ y ∈ ys, Led marked y) : xs = ys :=
  pieces_eq (counts_eq h (by rw [hflat])) hflat hxs hys

/-- Pieces as long as the first pieces of a division of the same stream are these pieces. -/
theorem append_of_lengths {rest : List α} (hlength : xs.map List.length <+: ys.map List.length)
    (hflat : xs.flatten ++ rest = ys.flatten) : ∃ zs, ys = xs ++ zs ∧ rest = zs.flatten := by
  induction xs generalizing ys with
  | nil => exact ⟨ys, rfl, hflat⟩
  | cons x xs ih =>
    cases ys with
    | nil =>
      rw [List.map_nil, List.prefix_nil] at hlength
      cases hlength
    | cons y ys =>
      rw [List.map_cons, List.map_cons, List.cons_prefix_cons] at hlength
      rw [List.flatten_cons, List.flatten_cons, List.append_assoc] at hflat
      obtain ⟨rfl, htail⟩ := List.append_inj hflat hlength.1
      obtain ⟨zs, rfl, hrest⟩ := ih hlength.2 htail
      exact ⟨zs, rfl, hrest⟩

end TopicBroker.Divisions
