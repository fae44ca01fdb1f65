import Mathlib.Data.List.Forall2
import Mathlib.Data.List.Nodup
import TopicBroker.Message

/-!
The growable buffer of buffer.c, down to its element cells. `data` is an array
of `cap` pointers; every element lives in a cell of its own that `add_pos`
allocated and `del_pos` frees. Addresses are never reused, so a freed cell can
be told from a live one; an access that leaves the pointer array, follows a
pointer to no cell or reaches a freed cell has no defined outcome.
The server's modules work with the list of elements a buffer holds. The
refinement theorems at the end say that `readAt`, `insertAt` and `deleteAt` on
that list are what `get_pos`, `add_pos` and `del_pos` do to the cells.
-/
namespace TopicBroker.Buffer

open Message

/-- A pointer of the array: cleared, never written, or the address of a cell. -/
inductive Slot
  | null
  | unwritten
  | cell (addr : ℕ)
deriving DecidableEq

structure Buff (α : Type) where
  len : ℕ
  cap : ℕ
  data : List Slot
  cells : List (Option α)

namespace Buff

variable {α : Type}

/-- `malloc(sizeof(buff))` has room for a pointer only: the fields behind it are taken to lie in
slack of the allocator that belongs to no other block. -/
def init (cap : ℕ) : Except Stop (Buff α) :=
  if cap = 0 then .error (.die "ERROR: CAPACITY\n")
  else .ok ⟨0, cap, List.replicate cap .null, []⟩

def slot (b : Buff α) (i : ℕ) : Except Stop Slot :=
  match b.data[i]? with
  | some p => .ok p
  | none => .error .undefined

def load (b : Buff α) : Slot → Except Stop α
  | .cell a =>
    match b.cells[a]? with
    | some (some v) => .ok v
    | _ => .error .undefined
  | _ => .error .undefined

def store (b : Buff α) (p : Slot) (v : α) : Except Stop (Buff α) :=
  match p with
  | .cell a =>
    match b.cells[a]? with
    | some (some _) => .ok { b with cells := b.cells.set a (some v) }
    | _ => .error .undefined
  | _ => .error .undefined

def free (b : Buff α) : Slot → Except Stop (Buff α)
  | .null => .ok b
  | .cell a =>
    match b.cells[a]? with
    | some (some _) => .ok { b with cells := b.cells.set a none }
    | _ => .error .undefined
  | .unwritten => .error .undefined

def getPos (b : Buff α) (pos : ℕ) : Except Stop Slot :=
  if b.len < pos then .error (.die "ERROR: Invalid Position in Buffer\n") else b.slot pos

/-- `realloc` leaves the new part of the pointer array unwritten. -/
def grow (b : Buff α) : Buff α :=
  if b.len = b.cap then
    { b with cap := b.cap + b.cap / 2, data := b.data ++ List.replicate (b.cap / 2) .unwritten }
  else b

/-- `memmove` of the pointers from `pos` on, and a new cell at `pos`. -/
def place (b : Buff α) (v : α) (pos : ℕ) : Buff α where
  len := b.len + 1
  cap := b.cap
  data := b.data.take pos ++ .cell b.cells.length ::
    ((b.data.drop pos).take (b.len - pos) ++ b.data.drop (b.len + 1))
  cells := b.cells ++ [some v]

/-- The move touches the slots up to and including `len`. -/
def addPos (b : Buff α) (v : α) (pos : ℕ) : Except Stop (Buff α) :=
  if b.len < pos then .error (.die "ERROR: Invalid Position in Buffer\n")
  else if b.grow.len < b.grow.cap then .ok (b.grow.place v pos)
  else .error .undefined

/-- `while (i++ < len)`: the test reads `i` and the body the incremented `i`,
so an iteration copies cell `i + 2` into cell `i + 1`. -/
def shift (b : Buff α) : ℕ → ℕ → Except Stop (Buff α)
  | 0, _ => .ok b
  | fuel + 1, i =>
    if i < b.len then do
      let prev ← b.slot (i + 1)
      let curr ← b.slot (i + 2)
      let v ← b.load curr
      let b' ← b.store prev v
      shift b' fuel (i + 1)
    else .ok b

def delPos (b : Buff α) (pos : ℕ) : Except Stop (Buff α) :=
  if b.len < pos then .error (.die "ERROR: Invalid Position in Buffer\n")
  else do
    let b ← b.shift b.len (pos + 1)
    let p ← b.slot pos
    let b ← b.free p
    .ok { b with len := b.len - 1 }

end Buff

variable {α : Type}

def readAt (xs : List α) (pos : ℕ) : Except Stop α :=
  if xs.length < pos then .error (.die "ERROR: Invalid Position in Buffer\n")
  else
    match xs[pos]? with
    | some x => .ok x
    | none => .error .undefined

def insertAt (xs : List α) (v : α) (pos : ℕ) : Except Stop (List α) :=
  if xs.length < pos then .error (.die "ERROR: Invalid Position in Buffer\n")
  else .ok (xs.take pos ++ v :: xs.drop pos)

/-- Only the last element can be deleted without leaving the live cells. -/
def deleteAt (xs : List α) (pos : ℕ) : Except Stop (List α) :=
  if xs.length < pos then .error (.die "ERROR: Invalid Position in Buffer\n")
  else if pos + 1 = xs.length then .ok xs.dropLast
  else .error .undefined

@[simp] theorem insertAt_zero (xs : List α) (v : α) : insertAt xs v 0 = .ok (v :: xs) := by
  simp [insertAt]

@[simp] theorem insertAt_length (xs : List α) (v : α) :
    insertAt xs v xs.length = .ok (xs ++ [v]) := by
  simp [insertAt]

theorem readAt_of_lt {xs : List α} {pos : ℕ} (h : pos < xs.length) :
    readAt xs pos = .ok xs[pos] := by
  simp [readAt, h, Nat.le_of_lt h]

theorem readAt_eq_ok {xs : List α} {pos : ℕ} {x : α} (h : readAt xs pos = .ok x) :
    xs[pos]? = some x := by
  unfold readAt at h
  split at h
  · cases h
  · cases hx : xs[pos]? with
    | none => simp [hx] at h
    | some y => simpa [hx] using h

theorem deleteAt_eq_ok {xs ys : List α} {pos : ℕ} (h : deleteAt xs pos = .ok ys) :
    pos + 1 = xs.length ∧ ys = xs.dropLast := by
  unfold deleteAt at h
  split at h
  · cases h
  · split at h
    · rename_i hlast
      exact ⟨hlast, (Except.ok.inj h).symm⟩
    · cases h

/-- The cells behind a list of elements: the first `len` slots point at distinct
live cells holding the elements, and no other slot points at a live cell. -/
structure Layout (b : Buff α) (addrs : List ℕ) (spare : List Slot) (xs : List α) : Prop where
  data_eq : b.data = addrs.map Slot.cell ++ spare
  len_eq : b.len = addrs.length
  cap_eq : b.cap = b.data.length
  distinct : addrs.Nodup
  live : List.Forall₂ (fun a x => b.cells[a]? = some (some x)) addrs xs
  dead : ∀ a, Slot.cell a ∈ spare → b.cells[a]? = some none

def Holds (b : Buff α) (xs : List α) : Prop := ∃ addrs spare, Layout b addrs spare xs

theorem Layout.length_eq {b : Buff α} {addrs : List ℕ} {spare : List Slot} {xs : List α}
    (h : Layout b addrs spare xs) : b.len = xs.length := h.len_eq.trans h.live.length_eq

theorem Holds.length_eq {b : Buff α} {xs : List α} (h : Holds b xs) : b.len = xs.length := by
  obtain ⟨addrs, spare, hl⟩ := h
  exact hl.length_eq

theorem Layout.addr_lt {b : Buff α} {addrs : List ℕ} {spare : List Slot} {xs : List α}
    (h : Layout b addrs spare xs) {a : ℕ} (ha : a ∈ addrs) : a < b.cells.length := by
  obtain ⟨i, hi, rfl⟩ := List.mem_iff_getElem.mp ha
  have hx := h.live.get hi (by rw [← h.live.length_eq]; exact hi)
  simp only [List.get_eq_getElem] at hx
  exact (List.getElem?_eq_some_iff.mp hx).1

theorem init_holds {cap : ℕ} (hcap : 0 < cap) :
    ∃ b : Buff α, Buff.init cap = .ok b ∧ b.cap = cap ∧ Holds b [] := by
  refine ⟨⟨0, cap, List.replicate cap .null, []⟩, ?_, rfl, [], List.replicate cap .null, ?_⟩
  · simp [Buff.init, Nat.ne_of_gt hcap]
  · exact {
      data_eq := rfl
      len_eq := rfl
      cap_eq := List.length_replicate.symm
      distinct := List.nodup_nil
      live := List.Forall₂.nil
      dead := fun a ha => by simp at ha
    }

/-- A slot of the list and the cell that it points at. -/
theorem Holds.slot {b : Buff α} {xs : List α} (h : Holds b xs) {pos : ℕ} (hpos : pos < xs.length) :
    ∃ a, b.data[pos]? = some (.cell a) ∧ b.cells[a]? = some (some xs[pos]) := by
  obtain ⟨addrs, spare, hl⟩ := h
  have haddr : pos < addrs.length := by rw [hl.live.length_eq]; exact hpos
  refine ⟨addrs[pos], ?_, hl.live.get haddr hpos⟩
  rw [hl.data_eq, List.getElem?_append_left (by simpa using haddr)]
  simp [haddr]

/-- Reading a position below the length gives the element of the list. -/
theorem getPos_refines {b : Buff α} {xs : List α} (h : Holds b xs) {pos : ℕ}
    (hpos : pos < xs.length) : (b.getPos pos).bind b.load = readAt xs pos := by
  obtain ⟨a, hslot, hcell⟩ := h.slot hpos
  have hlen : ¬ b.len < pos := by rw [h.length_eq]; omega
  rw [readAt_of_lt hpos, Buff.getPos, if_neg hlen, Buff.slot, hslot]
  simp [Except.bind, Buff.load, hcell]

/-- Growing keeps the elements and makes room, given a capacity of at least two. -/
theorem grow_layout {b : Buff α} {addrs : List ℕ} {spare : List Slot} {xs : List α}
    (h : Layout b addrs spare xs) (hcap : 2 ≤ b.cap) :
    ∃ s rest, Layout b.grow addrs (s :: rest) xs ∧ b.cap ≤ b.grow.cap ∧
      b.grow.cells = b.cells ∧ b.grow.len = b.len := by
  have hdata : b.data.length = addrs.length + spare.length := by
    rw [h.data_eq, List.length_append, List.length_map]
  have hspare : b.cap = b.len + spare.length := by rw [h.cap_eq, hdata, h.len_eq]
  by_cases hfull : b.len = b.cap
  · obtain ⟨n, hn⟩ : ∃ n, b.cap / 2 = n + 1 := ⟨b.cap / 2 - 1, by omega⟩
    have hnil : spare = [] := List.eq_nil_of_length_eq_zero (by omega)
    subst hnil
    refine ⟨.unwritten, List.replicate n .unwritten, ?_, ?_, ?_, ?_⟩
    · simp only [Buff.grow, if_pos hfull, hn]
      exact {
        data_eq := by rw [h.data_eq, List.append_nil, List.replicate_succ]
        len_eq := h.len_eq
        cap_eq := by simp only [List.length_append, List.length_replicate, h.cap_eq]
        distinct := h.distinct
        live := h.live
        dead := fun a ha => by simp at ha
      }
    · simp only [Buff.grow, if_pos hfull]
      omega
    · simp only [Buff.grow, if_pos hfull]
    · simp only [Buff.grow, if_pos hfull]
  · cases spare with
    | nil =>
      simp only [List.length_nil] at hspare
      omega
    | cons s rest =>
      have hgrow : b.grow = b := by simp only [Buff.grow, if_neg hfull]
      rw [hgrow]
      exact ⟨s, rest, h, le_rfl, rfl, rfl⟩

/-- With a slot to spare, an insertion keeps the layout of the list inserted into. -/
theorem place_layout {b : Buff α} {addrs : List ℕ} {s : Slot} {rest : List Slot} {xs : List α}
    (h : Layout b addrs (s :: rest) xs) (v : α) {pos : ℕ} (hpos : pos ≤ addrs.length) :
    Layout (b.place v pos) (addrs.take pos ++ b.cells.length :: addrs.drop pos) rest
      (xs.take pos ++ v :: xs.drop pos) := by
  have hfresh : b.cells.length ∉ addrs := fun ha => absurd (h.addr_lt ha) (lt_irrefl _)
  have hkeep : ∀ a, a < b.cells.length → (b.cells ++ [some v])[a]? = b.cells[a]? :=
    fun a ha => List.getElem?_append_left ha
  have hnew : (b.cells ++ [some v])[b.cells.length]? = some (some v) := by simp
  have hold : List.Forall₂ (fun a x => (b.cells ++ [some v])[a]? = some (some x)) addrs xs := by
    apply List.forall₂_iff_get.mpr
    refine ⟨h.live.length_eq, fun i hi hi' => ?_⟩
    rw [hkeep _ (h.addr_lt (List.get_mem addrs ⟨i, hi⟩))]
    exact h.live.get hi hi'
  have htake : b.data.take pos = (addrs.take pos).map Slot.cell := by
    rw [h.data_eq, List.take_append_of_le_length (by simpa using hpos), List.map_take]
  have hmid : (b.data.drop pos).take (b.len - pos) = (addrs.drop pos).map Slot.cell := by
    rw [h.data_eq, List.drop_append_of_le_length (by simpa using hpos), h.len_eq,
      List.take_append_of_le_length (by simp), List.map_drop]
    exact List.take_of_length_le (by simp)
  have hrest : b.data.drop (b.len + 1) = rest := by
    have hsplit : b.data = (addrs.map Slot.cell ++ [s]) ++ rest := by
      rw [h.data_eq, List.append_assoc, List.singleton_append]
    rw [hsplit, List.drop_left' (by simp [h.len_eq])]
  have hdata : (b.place v pos).data =
      (addrs.take pos ++ b.cells.length :: addrs.drop pos).map Slot.cell ++ rest := by
    simp only [Buff.place, htake, hmid, hrest, List.map_append, List.map_cons, List.append_assoc,
      List.cons_append]
  have hcount : (addrs.take pos ++ b.cells.length :: addrs.drop pos).length = addrs.length + 1 := by
    simp only [List.length_append, List.length_cons, List.length_take, List.length_drop,
      Nat.min_eq_left hpos]
    omega
  exact {
    data_eq := hdata
    len_eq := by rw [hcount, ← h.len_eq]; rfl
    cap_eq := by
      have hcap := h.cap_eq
      rw [h.data_eq, List.length_append, List.length_map, List.length_cons] at hcap
      rw [hdata, List.length_append, List.length_map, hcount]
      change b.cap = _
      omega
    distinct := by
      rw [List.nodup_middle, List.nodup_cons, List.take_append_drop]
      exact ⟨hfresh, h.distinct⟩
    live := List.rel_append (List.forall₂_take pos hold)
      (List.Forall₂.cons hnew (List.forall₂_drop pos hold))
    dead := fun a ha => by
      have hdead := h.dead a (List.mem_cons_of_mem s ha)
      exact (hkeep a (List.getElem?_eq_some_iff.mp hdead).1).trans hdead
  }

/-- Inserting allocates one cell and moves the pointers behind it up. -/
theorem addPos_refines {b : Buff α} {xs : List α} (h : Holds b xs) (hcap : 2 ≤ b.cap)
    (v : α) {pos : ℕ} (hpos : pos ≤ xs.length) :
    ∃ b' ys, b.addPos v pos = .ok b' ∧ insertAt xs v pos = .ok ys ∧ Holds b' ys ∧
      b'.len = b.len + 1 ∧ b.cap ≤ b'.cap := by
  obtain ⟨addrs, spare, hl⟩ := h
  obtain ⟨s, rest, hg, hle, _, hlen⟩ := grow_layout hl hcap
  have hpos' : pos ≤ addrs.length := by rw [hl.live.length_eq]; exact hpos
  have hbound : ¬ b.len < pos := by rw [hl.len_eq]; omega
  have hroom : b.grow.len < b.grow.cap := by
    rw [hg.cap_eq, hg.data_eq, hg.len_eq]
    simp only [List.length_append, List.length_map, List.length_cons]
    omega
  refine ⟨b.grow.place v pos, xs.take pos ++ v :: xs.drop pos, ?_, ?_,
    ⟨_, rest, place_layout hg v hpos'⟩, ?_, hle⟩
  · rw [Buff.addPos, if_neg hbound, if_pos hroom]
  · rw [insertAt, if_neg (not_lt.mpr hpos)]
  · change b.grow.len + 1 = b.len + 1
    rw [hlen]

/-- Deleting the last element runs no iteration of the loop. -/
theorem delPos_eq {b : Buff α} {pos a : ℕ} {v : α} (hlen : b.len = pos + 1)
    (hslot : b.data[pos]? = some (.cell a)) (hcell : b.cells[a]? = some (some v)) :
    b.delPos pos = .ok { b with cells := b.cells.set a none, len := pos } := by
  have hshift : b.shift b.len (pos + 1) = .ok b := by
    rw [hlen, Buff.shift, if_neg (by omega)]
  have hpos : ¬ b.len < pos := by omega
  simp only [Buff.delPos, if_neg hpos, hshift, Buff.slot, hslot, Buff.free, hcell, bind, Except.bind]
  rw [hlen, Nat.add_sub_cancel]

/-- Deleting the last element frees its cell and touches no other. -/
theorem delPos_last {b : Buff α} {xs : List α} (h : Holds b xs) {pos : ℕ}
    (hpos : pos + 1 = xs.length) :
    ∃ b', b.delPos pos = .ok b' ∧ Holds b' xs.dropLast ∧ b'.cap = b.cap ∧
      b'.len + 1 = b.len := by
  obtain ⟨addrs, spare, hl⟩ := h
  have hlen : b.len = pos + 1 := by rw [hl.length_eq, hpos]
  have haddrs : addrs.length = pos + 1 := hl.len_eq.symm.trans hlen
  obtain ⟨front, a, rfl⟩ : ∃ front a, addrs = front ++ [a] := by
    refine ⟨addrs.dropLast, addrs.getLast (fun hnil => ?_), (List.dropLast_append_getLast _).symm⟩
    simp [hnil] at haddrs
  obtain ⟨ys, x, rfl⟩ : ∃ ys x, xs = ys ++ [x] := by
    refine ⟨xs.dropLast, xs.getLast (fun hnil => ?_), (List.dropLast_append_getLast _).symm⟩
    simp [hnil] at hpos
  have hfront : front.length = pos := by simpa using haddrs
  obtain ⟨hlive, hlast⟩ : List.Forall₂ (fun a x => b.cells[a]? = some (some x)) front ys ∧
      b.cells[a]? = some (some x) := by
    have hsize : front.length = ys.length := by
      have := hl.live.length_eq
      simpa using this
    have htake := List.forall₂_take front.length hl.live
    have hdrop := List.forall₂_drop front.length hl.live
    rw [List.take_left' rfl, List.take_left' hsize.symm] at htake
    rw [List.drop_left' rfl, List.drop_left' hsize.symm] at hdrop
    exact ⟨htake, (List.forall₂_cons.mp hdrop).1⟩
  have hslot : b.data[pos]? = some (.cell a) := by
    rw [hl.data_eq, List.map_append, List.append_assoc,
      List.getElem?_append_right (by simp [hfront])]
    simp [hfront]
  have hnot : a ∉ front := fun ha => by
    have hd := hl.distinct
    rw [List.nodup_append] at hd
    exact hd.2.2 a ha a (List.mem_singleton_self a) rfl
  refine ⟨{ b with cells := b.cells.set a none, len := pos }, delPos_eq hlen hslot hlast,
    ⟨front, .cell a :: spare, ?_⟩, rfl, hlen.symm⟩
  · exact {
      data_eq := by simp [hl.data_eq]
      len_eq := hfront.symm
      cap_eq := hl.cap_eq
      distinct := (List.nodup_append.mp hl.distinct).1
      live := by
        rw [List.dropLast_concat]
        apply List.forall₂_iff_get.mpr
        refine ⟨hlive.length_eq, fun i hi hi' => ?_⟩
        have hne : front.get ⟨i, hi⟩ ≠ a := fun he => hnot (he ▸ List.get_mem front ⟨i, hi⟩)
        rw [List.getElem?_set_ne (Ne.symm hne)]
        exact hlive.get hi hi'
      dead := fun c hc => by
        rcases List.mem_cons.mp hc with hca | hc
        · cases hca
          rw [List.getElem?_set_self (List.getElem?_eq_some_iff.mp hlast).1]
        · by_cases hca : c = a
          · subst hca
            rw [List.getElem?_set_self (List.getElem?_eq_some_iff.mp hlast).1]
          · rw [List.getElem?_set_ne (Ne.symm hca)]
            exact hl.dead c hc
    }

/-- Storing through a live pointer changes the contents of cells, not the layout:
the pointers, the length and which cells are live stay as they were. -/
theorem store_frame {b b' : Buff α} {p : Slot} {v : α} (h : b.store p v = .ok b') :
    b'.data = b.data ∧ b'.len = b.len ∧ b'.cap = b.cap ∧
      ∀ a : ℕ, b'.cells[a]? = some none ↔ b.cells[a]? = some none := by
  cases p with
  | null => cases h
  | unwritten => cases h
  | cell c =>
    simp only [Buff.store] at h
    split at h
    · rename_i w hw
      cases h
      refine ⟨rfl, rfl, rfl, fun a => ?_⟩
      by_cases hac : a = c
      · subst hac
        rw [List.getElem?_set_self (List.getElem?_eq_some_iff.mp hw).1, hw]
        simp
      · rw [List.getElem?_set_ne (Ne.symm hac)]
    · cases h

/-- Once the shifting loop is entered its last iteration follows the pointer
behind the last element, which points at no live cell. -/
theorem shift_undefined (fuel : ℕ) : ∀ (b : Buff α) (i : ℕ),
    (∀ j p, b.len ≤ j → b.data[j]? = some p →
      ∀ a, p = .cell a → b.cells[a]? = some none) →
    i < b.len → b.len ≤ i + fuel → b.shift fuel i = .error .undefined := by
  induction fuel with
  | zero =>
    intro b i _ hi hfuel
    omega
  | succ fuel ih =>
    intro b i hdead hi hfuel
    rw [Buff.shift, if_pos hi]
    cases hprev : b.data[i + 1]? with
    | none => simp [Buff.slot, hprev, bind, Except.bind]
    | some prev =>
      cases hcurr : b.data[i + 2]? with
      | none => simp [Buff.slot, hprev, hcurr, bind, Except.bind]
      | some curr =>
        simp only [Buff.slot, hprev, hcurr, bind, Except.bind]
        cases hload : b.load curr with
        | error e =>
          cases curr with
          | null => simpa [Buff.load] using hload.symm
          | unwritten => simpa [Buff.load] using hload.symm
          | cell a =>
            simp only [Buff.load] at hload
            split at hload
            · cases hload
            · simpa using hload.symm
        | ok v =>
          simp only
          cases hstore : b.store prev v with
          | error e =>
            cases prev with
            | null => simpa [Buff.store] using hstore.symm
            | unwritten => simpa [Buff.store] using hstore.symm
            | cell a =>
              simp only [Buff.store] at hstore
              split at hstore
              · cases hstore
              · simpa using hstore.symm
          | ok b' =>
            simp only
            obtain ⟨hdata, hlen, _, hnone⟩ := store_frame hstore
            -- the cell written is live, so it is not the one behind the last element
            have hlast : i + 1 ≠ b.len := fun hend => by
              cases prev with
              | null => simp [Buff.store] at hstore
              | unwritten => simp [Buff.store] at hstore
              | cell a =>
                have hfreed := hdead (i + 1) _ (le_of_eq hend.symm) hprev a rfl
                simp [Buff.store, hfreed] at hstore
            apply ih b' (i + 1)
            · intro j p hj hp a hpa
              rw [hdata] at hp
              rw [hlen] at hj
              exact (hnone a).mpr (hdead j p hj hp a hpa)
            · omega
            · omega

/-- Deleting any element but the last runs into a pointer to no live cell. -/
theorem delPos_undefined {b : Buff α} {xs : List α} (h : Holds b xs) {pos : ℕ}
    (hpos : pos + 1 < xs.length) : b.delPos pos = .error .undefined := by
  obtain ⟨addrs, spare, hl⟩ := h
  have hlen := hl.length_eq
  have hshift : b.shift b.len (pos + 1) = .error .undefined := by
    apply shift_undefined
    · intro j p hj hp a hpa
      apply hl.dead a
      rw [hl.data_eq, List.getElem?_append_right (by simpa [← hl.len_eq] using hj)] at hp
      rw [← hpa]
      exact List.mem_of_getElem? hp
    · omega
    · omega
  simp only [Buff.delPos, if_neg (show ¬ b.len < pos by omega), hshift, bind, Except.bind]

/-- `deleteAt` on the elements is `del_pos` on the cells, at every position below the length. -/
theorem delPos_refines {b : Buff α} {xs : List α} (h : Holds b xs) {pos : ℕ}
    (hpos : pos < xs.length) :
    (∃ b' ys, b.delPos pos = .ok b' ∧ deleteAt xs pos = .ok ys ∧ Holds b' ys) ∨
      (b.delPos pos = .error .undefined ∧ deleteAt xs pos = .error .undefined) := by
  have hle : ¬ xs.length < pos := by omega
  by_cases hlast : pos + 1 = xs.length
  · obtain ⟨b', hdel, hholds, _, _⟩ := delPos_last h hlast
    exact Or.inl ⟨b', xs.dropLast, hdel, by
      simp only [deleteAt, if_neg hle, if_pos hlast], hholds⟩
  · exact Or.inr ⟨delPos_undefined h (by omega), by
      simp only [deleteAt, if_neg hle, if_neg hlast]⟩

end TopicBroker.Buffer
