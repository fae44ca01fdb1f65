import TopicBroker.Buffer
import TopicBroker.Runs

/-!
The growable buffer over its calls. Any sequence of insertions from an empty buffer
keeps the cells of the list that the same insertions make, and no slot beyond the
capacity is touched. A deletion is the deletion of the list at the last position and at
no other.
-/
namespace TopicBroker.BufferCalls

open Message Buffer Runs

variable {α : Type}

/-- Insertion as `add_pos` is documented. -/
theorem insertIdx_eq {xs : List α} (v : α) : ∀ {pos : ℕ}, pos ≤ xs.length →
    xs.insertIdx pos v = xs.take pos ++ v :: xs.drop pos := by
  induction xs with
  | nil =>
    intro pos hpos
    have hzero : pos = 0 := Nat.le_zero.mp hpos
    subst hzero
    rfl
  | cons x xs ih =>
    intro pos hpos
    cases pos with
    | zero => rfl
    | succ pos =>
      rw [List.insertIdx_succ_cons, ih (Nat.le_of_succ_le_succ hpos)]
      rfl

/-- A call of `add_pos` at a position up to the length. -/
def Insertion (b : Buff α) (call : α × ℕ) (b' : Buff α) : Prop :=
  call.2 ≤ b.len ∧ b.addPos call.1 call.2 = .ok b'

/-- The list that a sequence of insertions makes. -/
def inserted (tr : List (Buff α × (α × ℕ))) : List α :=
  tr.foldl (fun xs e => xs.insertIdx e.2.2 e.2.1) []

/-- What an insertion does to the pointers: it touches no slot but those from the
position up to the old length, and these are below the capacity. -/
structure Inserted (b b' : Buff α) (pos : ℕ) : Prop where
  length : b'.len = b.len + 1
  room : b'.len ≤ b'.cap
  size : b'.data.length = b'.cap
  untouched : ∀ i, i < pos ∨ b.len < i → b'.data[i]? = b.grow.data[i]?

section Steps

variable {b : Buff α} {xs : List α}

theorem Holds.room (h : Holds b xs) : b.len ≤ b.cap ∧ b.data.length = b.cap := by
  obtain ⟨addrs, spare, hl⟩ := h
  have hcap := hl.cap_eq
  rw [hl.data_eq, List.length_append, List.length_map, ← hl.len_eq] at hcap
  exact ⟨by omega, hl.cap_eq.symm⟩

/-- The slots of the list are pointers to cells with its elements. -/
theorem Holds.cell (h : Holds b xs) {i : ℕ} (hi : i < b.len) :
    ∃ a v, b.getPos i = .ok (.cell a) ∧ b.load (.cell a) = .ok v ∧ xs[i]? = some v := by
  have hi' : i < xs.length := by rw [← h.length_eq]; exact hi
  obtain ⟨a, hslot, hcell⟩ := h.slot hi'
  refine ⟨a, xs[i], ?_, ?_, List.getElem?_eq_getElem hi'⟩
  · rw [Buff.getPos, if_neg (by omega), Buff.slot, hslot]
  · rw [Buff.load, hcell]

theorem Holds.cells_distinct (h : Holds b xs) {i j a : ℕ} (hi : i < b.len) (hj : j < b.len)
    (hslot : b.getPos i = .ok (.cell a)) (hslot' : b.getPos j = .ok (.cell a)) : i = j := by
  obtain ⟨addrs, spare, hl⟩ := h
  have haddr : ∀ {k : ℕ} (hk : k < addrs.length), b.getPos k = .ok (.cell a) → addrs[k] = a := by
    intro k hk hget
    have hdata : b.data[k]? = some (.cell addrs[k]) := by
      rw [hl.data_eq, List.getElem?_append_left (by simpa using hk)]
      simp [hk]
    rw [Buff.getPos, if_neg (by rw [hl.len_eq]; omega), Buff.slot, hdata] at hget
    cases hget
    rfl
  have hi' : i < addrs.length := by rw [← hl.len_eq]; exact hi
  have hj' : j < addrs.length := by rw [← hl.len_eq]; exact hj
  exact (hl.distinct.getElem_inj_iff).mp ((haddr hi' hslot).trans (haddr hj' hslot').symm)

/-- The move of the tail and the new pointer stay between the position and the length. -/
theorem place_untouched (v : α) {pos i : ℕ} (hpos : pos ≤ b.len) (hroom : b.len < b.data.length)
    (hi : i < pos ∨ b.len < i) : (b.place v pos).data[i]? = b.data[i]? := by
  have hfront : (b.data.take pos).length = pos := by
    rw [List.length_take, Nat.min_eq_left (by omega)]
  have hmoved : ((b.data.drop pos).take (b.len - pos)).length = b.len - pos := by
    rw [List.length_take, List.length_drop, Nat.min_eq_left (by omega)]
  change (b.data.take pos ++ .cell b.cells.length ::
    ((b.data.drop pos).take (b.len - pos) ++ b.data.drop (b.len + 1)))[i]? = _
  rcases hi with hbefore | hbehind
  · rw [List.getElem?_append_left (by rw [hfront]; exact hbefore), List.getElem?_take_of_lt hbefore]
  · obtain ⟨k, rfl⟩ : ∃ k, i = b.len + 1 + k := ⟨i - (b.len + 1), by omega⟩
    have hindex : b.len + 1 + k - pos = (b.len - pos + k) + 1 := by omega
    rw [List.getElem?_append_right (by rw [hfront]; omega), hfront, hindex, List.getElem?_cons_succ,
      List.getElem?_append_right (by rw [hmoved]; omega), hmoved, Nat.add_sub_cancel_left,
      List.getElem?_drop]

theorem insertion_refines (h : Holds b xs) (hcap : 2 ≤ b.cap) (v : α) {pos : ℕ}
    (hpos : pos ≤ b.len) :
    ∃ b', b.addPos v pos = .ok b' ∧ Holds b' (xs.insertIdx pos v) ∧ 2 ≤ b'.cap ∧
      Inserted b b' pos := by
  have hpos' : pos ≤ xs.length := by
    rw [← h.length_eq]
    exact hpos
  obtain ⟨b', ys, hadd, hys, hholds, hlen, hle⟩ := addPos_refines h hcap v hpos'
  rw [insertAt, if_neg (not_lt.mpr hpos'), ← insertIdx_eq v hpos'] at hys
  cases hys
  obtain ⟨hroom, hsize⟩ := Holds.room hholds
  refine ⟨b', hadd, hholds, le_trans hcap hle, hlen, hroom, hsize, ?_⟩
  obtain ⟨addrs, spare, hl⟩ := h
  obtain ⟨s, rest, hgrown, _, _, hsame⟩ := grow_layout hl hcap
  have hfree : b.grow.len < b.grow.data.length := by
    rw [hgrown.data_eq, hgrown.len_eq]
    simp only [List.length_append, List.length_map, List.length_cons]
    omega
  rw [Buff.addPos, if_neg (not_lt.mpr hpos), if_pos (by rw [hgrown.cap_eq]; exact hfree)] at hadd
  cases hadd
  intro i hi
  exact place_untouched v (by rw [hsame]; exact hpos) hfree (by rw [hsame]; exact hi)

end Steps

theorem inserted_append (tr : List (Buff α × (α × ℕ))) (b : Buff α) (v : α) (pos : ℕ) :
    inserted (tr ++ [(b, (v, pos))]) = (inserted tr).insertIdx pos v := by
  rw [inserted, List.foldl_append]
  rfl

theorem run_holds {cap : ℕ} (hcap : 2 ≤ cap) {b₀ b : Buff α} {tr : List (Buff α × (α × ℕ))}
    (hinit : Buff.init cap = .ok b₀) (h : Path Insertion b₀ tr b) :
    Holds b (inserted tr) ∧ 2 ≤ b.cap := by
  refine Path.invariant (fun tr b => Holds b (inserted tr) ∧ 2 ≤ b.cap) ?_ ?_ h
  · obtain ⟨b', hb', hcap', hholds⟩ := init_holds (α := α) (show 0 < cap by omega)
    rw [hinit] at hb'
    cases hb'
    exact ⟨hholds, by rw [hcap']; exact hcap⟩
  · rintro tr b ⟨v, pos⟩ b' _ ⟨hholds, hcap⟩ ⟨hpos, hadd⟩
    obtain ⟨b'', hadd', hholds', hcap', _⟩ := insertion_refines hholds hcap v hpos
    rw [hadd] at hadd'
    cases hadd'
    rw [inserted_append]
    exact ⟨hholds', hcap'⟩

/-- Insertions into a buffer of capacity at least two. Whatever came before, the buffer
holds the list of the same insertions in distinct cells and within its capacity, and
the next insertion goes through. -/
theorem insertions_refine {cap : ℕ} (hcap : 2 ≤ cap) {b₀ b : Buff α}
    {tr : List (Buff α × (α × ℕ))} (hinit : Buff.init cap = .ok b₀) (h : Path Insertion b₀ tr b) :
    b.len = (inserted tr).length ∧ b.len ≤ b.cap ∧ b.data.length = b.cap ∧
    (∀ i < b.len, ∃ a v, b.getPos i = .ok (.cell a) ∧ b.load (.cell a) = .ok v ∧
      (inserted tr)[i]? = some v) ∧
    (∀ i j a, i < b.len → j < b.len → b.getPos i = .ok (.cell a) → b.getPos j = .ok (.cell a) →
      i = j) ∧
    ∀ v pos, pos ≤ b.len → ∃ b', b.addPos v pos = .ok b' ∧ Inserted b b' pos := by
  obtain ⟨hholds, hcap'⟩ := run_holds hcap hinit h
  obtain ⟨hroom, hsize⟩ := Holds.room hholds
  refine ⟨hholds.length_eq, hroom, hsize, fun i hi => Holds.cell hholds hi,
    fun i j a => Holds.cells_distinct hholds, ?_⟩
  intro v pos hpos
  obtain ⟨b', hadd, _, _, hinserted⟩ := insertion_refines hholds hcap' v hpos
  exact ⟨b', hadd, hinserted⟩

/-- Insertions at the front and in the middle, from capacity two, and one more. -/
theorem insertions_refine_grown :
    ∃ (b : Buff ℕ) (tr : List (Buff ℕ × (ℕ × ℕ))),
      Path Insertion ⟨0, 2, [.null, .null], []⟩ tr b ∧ inserted tr = [2, 3, 1] ∧ b.cap = 3 ∧
      b.len ≤ b.cap ∧ ∃ b', b.addPos 4 3 = .ok b' ∧ Inserted b b' 3 ∧ b'.cap = 4 := by
  have hfirst : Path Insertion (⟨0, 2, [.null, .null], []⟩ : Buff ℕ) [(_, (1, 0))] _ :=
    Path.single ⟨le_rfl, rfl⟩
  have hsecond := Path.tail hfirst (i := (2, 0)) ⟨Nat.zero_le _, rfl⟩
  have hthird := Path.tail hsecond (i := (3, 1)) ⟨Nat.le_succ 1, rfl⟩
  obtain ⟨_, hroom, _, _, _, hnext⟩ := insertions_refine (le_refl 2) rfl hthird
  obtain ⟨b', hadd, hinserted⟩ := hnext 4 3 le_rfl
  refine ⟨_, _, hthird, rfl, rfl, hroom, b', hadd, hinserted, ?_⟩
  cases hadd
  rfl

/-- The buffer with the pointer array cut off behind its elements. -/
def cut (b : Buff α) : Buff α := { b with data := b.data.take b.len }

/-- A deletion as it is documented: the element is gone from the list, one cell was
freed, the slots that are left point at cells with elements, and the slots behind the
list are not needed. -/
structure Deleted (b b' : Buff α) (xs : List α) (pos : ℕ) : Prop where
  holds : Holds b' (xs.eraseIdx pos)
  length : b'.len + 1 = b.len
  freed : ∃ (a : ℕ) (v : α), b.cells[a]? = some (some v) ∧ b'.cells[a]? = some none ∧
    ∀ c : ℕ, c ≠ a → (b'.cells[c]? = some none ↔ b.cells[c]? = some none)
  live : ∀ i : ℕ, i + 1 < b.len →
    ∃ (a : ℕ) (v : α), b'.data[i]? = some (.cell a) ∧ b'.cells[a]? = some (some v)
  inside : ∃ b'', (cut b).delPos pos = .ok b''

section Deletion

variable {b : Buff α} {xs : List α} {pos : ℕ}

/-- The last element is deleted as documented. -/
theorem last_deleted (h : Holds b xs) (hlast : pos + 1 = xs.length) :
    ∃ b', b.delPos pos = .ok b' ∧ Deleted b b' xs pos := by
  have hlen : b.len = pos + 1 := by rw [h.length_eq, hlast]
  obtain ⟨a, hslot, hcell⟩ := h.slot (show pos < xs.length by omega)
  have hdel := delPos_eq hlen hslot hcell
  obtain ⟨b', hdel', hholds, _, hlen'⟩ := delPos_last h hlast
  rw [hdel] at hdel'
  cases hdel'
  rw [← List.eraseIdx_eq_dropLast hlast] at hholds
  refine ⟨_, hdel, hholds, hlen', ⟨a, _, hcell, ?_, ?_⟩, ?_, ?_⟩
  · exact List.getElem?_set_self (List.getElem?_eq_some_iff.mp hcell).1
  · intro c hc
    rw [List.getElem?_set_ne (Ne.symm hc)]
  · intro i hi
    have hi' : i < pos := by omega
    obtain ⟨a', hslot', hcell'⟩ := hholds.slot (lt_of_lt_of_eq hi' hholds.length_eq)
    exact ⟨a', _, hslot', hcell'⟩
  · have hslot' : (cut b).data[pos]? = some (.cell a) := by
      rw [cut, List.getElem?_take_of_lt (by omega), hslot]
    exact ⟨_, delPos_eq (b := cut b) hlen hslot' hcell⟩

/-- `del_pos` deletes from the list exactly when it is given the last position. -/
theorem delPos_deletes_iff (h : Holds b xs) (hpos : pos < xs.length) :
    (∃ b', b.delPos pos = .ok b' ∧ Deleted b b' xs pos) ↔ pos + 1 = xs.length := by
  constructor
  · rintro ⟨b', hdel, _⟩
    by_contra hne
    rw [delPos_undefined h (by omega)] at hdel
    cases hdel
  · exact last_deleted h

end Deletion

/-- A buffer of two elements and capacity four. -/
def pairBuffer : Buff ℕ := ⟨2, 4, [.cell 0, .cell 1, .null, .null], [some 10, some 20]⟩

private theorem pairBuffer_holds : Holds pairBuffer [10, 20] :=
  ⟨[0, 1], [.null, .null], {
    data_eq := rfl
    len_eq := rfl
    cap_eq := rfl
    distinct := by decide
    live := List.Forall₂.cons rfl (List.Forall₂.cons rfl List.Forall₂.nil)
    dead := fun a ha => by simp at ha
  }⟩

theorem delPos_deletes_iff_last :
    ∃ b', pairBuffer.delPos 1 = .ok b' ∧ Deleted pairBuffer b' [10, 20] 1 :=
  (delPos_deletes_iff pairBuffer_holds (show 1 < [10, 20].length by decide)).mpr rfl

/-- The loop that deletes the first of two elements reads behind the second one. -/
theorem first_not_deleted :
    Holds pairBuffer [10, 20] ∧ pairBuffer.delPos 0 = .error .undefined :=
  ⟨pairBuffer_holds, rfl⟩

end TopicBroker.BufferCalls
