import Mathlib.Data.List.Nodup
import Mathlib.Tactic.Common

/-!
Tables of key-value pairs in which the newest pair comes first, so that the value
of a key is the one of its first pair. A table that is the front of a longer
history gives its keys the values that the history gives them.
-/
namespace TopicBroker.NewestFirst

variable {α β κ : Type*} [DecidableEq κ] {key : α → κ}

/-- The value that the first pair with the key has. -/
def latest (key : α → κ) (k : κ) (pairs : List (α × β)) : Option β :=
  (pairs.find? fun p => key p.1 = k).map Prod.snd

theorem latest_cons (p : α × β) (k : κ) (pairs : List (α × β)) :
    latest key k (p :: pairs) = if key p.1 = k then some p.2 else latest key k pairs := by
  unfold latest
  rw [List.find?_cons]
  by_cases h : key p.1 = k
  · simp [h]
  · simp [h]

/-- What the front of a history says of a key, the whole history says. -/
theorem latest_of_front {front history : List (α × β)} (h : front <+: history) {k : κ} {v : β}
    (hv : latest key k front = some v) : latest key k history = some v := by
  unfold latest at hv ⊢
  obtain ⟨p, hp, rfl⟩ := Option.map_eq_some_iff.mp hv
  rw [h.find?_eq_some hp, Option.map_some]

/-- The first pair of a key is the one that counts. -/
theorem latest_of_first {pairs : List (α × β)} :
    ∀ {n : ℕ} {a : α} {v : β}, pairs[n]? = some (a, v) →
      (∀ m < n, ∀ b w, pairs[m]? = some (b, w) → key b ≠ key a) →
      latest key (key a) pairs = some v := by
  induction pairs with
  | nil =>
    intro n a v h
    simp at h
  | cons p pairs ih =>
    intro n a v h hfirst
    rw [latest_cons]
    cases n with
    | zero =>
      rw [List.getElem?_cons_zero, Option.some.injEq] at h
      rw [h, if_pos rfl]
    | succ n =>
      have hne : key p.1 ≠ key a := hfirst 0 (Nat.succ_pos n) p.1 p.2 rfl
      rw [if_neg hne]
      rw [List.getElem?_cons_succ] at h
      refine ih h ?_
      intro m hm b w hb
      exact hfirst (m + 1) (Nat.succ_lt_succ hm) b w hb

/-- In a table of distinct keys every pair counts. -/
theorem latest_of_nodup {pairs : List (α × β)} (hnodup : (pairs.map fun p => key p.1).Nodup)
    {a : α} {v : β} (hmem : (a, v) ∈ pairs) : latest key (key a) pairs = some v := by
  induction pairs with
  | nil => cases hmem
  | cons p pairs ih =>
    rw [List.map_cons, List.nodup_cons] at hnodup
    rw [latest_cons]
    rcases List.mem_cons.mp hmem with rfl | htail
    · rw [if_pos rfl]
    · have hne : key p.1 ≠ key a := fun heq =>
        hnodup.1 (by rw [heq]; exact List.mem_map_of_mem (f := fun p => key p.1) htail)
      rw [if_neg hne]
      exact ih hnodup.2 htail

end TopicBroker.NewestFirst
