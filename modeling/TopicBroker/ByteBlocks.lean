import Mathlib.Data.List.Basic
import Mathlib.Data.List.TakeWhile
import Mathlib.Tactic.Common

/-!
Byte arrays of a fixed size and NUL-terminated strings, as C programs use them.
A `Block n` carries the proof of its size; a write takes the proof that it stays
inside, so no block is ever overrun. `cstr` is the string an array holds and
`strcmp` the comparison of two such strings.
-/
namespace TopicBroker.ByteBlocks

abbrev Bytes := List UInt8

/-- An array of `n` bytes. -/
structure Block (n : ℕ) where
  bytes : Bytes
  size : bytes.length = n
deriving DecidableEq

namespace Block

variable {n : ℕ}

@[ext] theorem ext {a b : Block n} (h : a.bytes = b.bytes) : a = b := by
  cases a
  cases b
  cases h
  rfl

attribute [simp] Block.size

/-- `memset` of a whole array. -/
def fill (n : ℕ) (b : UInt8) : Block n := ⟨List.replicate n b, List.length_replicate⟩

/-- `memcpy` into an array at an offset. -/
def write (dst : Block n) (off : ℕ) (src : Bytes) (h : off + src.length ≤ n) : Block n :=
  ⟨dst.bytes.take off ++ src ++ dst.bytes.drop (off + src.length), by
    have hsize := dst.size
    simp only [List.length_append, List.length_take, List.length_drop]
    omega⟩

/-- `memcpy` out of an array. -/
def slice (b : Block n) (off len : ℕ) (h : off + len ≤ n) : Block len :=
  ⟨(b.bytes.drop off).take len, by
    have hsize := b.size
    simp only [List.length_take, List.length_drop]
    omega⟩

/-- What a receive call with room for the whole array leaves in it. -/
def receive (dst : Block n) (src : Bytes) : Block n :=
  dst.write 0 (src.take n) (by simp only [List.length_take]; omega)

@[simp] theorem fill_bytes (b : UInt8) : (fill n b).bytes = List.replicate n b := rfl

theorem slice_bytes (b : Block n) (off len : ℕ) (h : off + len ≤ n) :
    (b.slice off len h).bytes = (b.bytes.drop off).take len := rfl

/-- A write behind a known front: it keeps the front and covers what comes next. -/
theorem write_at {dst : Block n} {off len : ℕ} (src pre post : Bytes)
    (h : off + src.length ≤ n) (hdst : dst.bytes = pre ++ post) (hpre : pre.length = off)
    (hlen : src.length = len) :
    (dst.write off src h).bytes = pre ++ src ++ post.drop len := by
  subst hpre hlen
  simp only [write, hdst]
  rw [List.take_left' rfl, ← List.drop_drop, List.drop_left' rfl]

/-- A write at the start. -/
theorem write_zero {dst : Block n} {len : ℕ} {src : Bytes} (h : 0 + src.length ≤ n)
    (hlen : src.length = len) : (dst.write 0 src h).bytes = src ++ dst.bytes.drop len :=
  write_at src [] dst.bytes h rfl rfl hlen

/-- A write of a whole array. -/
theorem write_all {dst : Block n} {src : Bytes} (h : 0 + src.length ≤ n) (hsrc : src.length = n) :
    (dst.write 0 src h).bytes = src := by
  rw [write_zero h hsrc, List.drop_eq_nil_of_le (le_of_eq dst.size), List.append_nil]

theorem receive_bytes (dst : Block n) (src : Bytes) :
    (dst.receive src).bytes = src.take n ++ dst.bytes.drop (src.take n).length := by
  simp [receive, write]

theorem receive_bytes_of_le (dst : Block n) (src : Bytes) (h : src.length ≤ n) :
    (dst.receive src).bytes = src ++ dst.bytes.drop src.length := by
  rw [receive_bytes, List.take_of_length_le h]

theorem receive_full (dst : Block n) (src : Block n) : dst.receive src.bytes = src := by
  apply ext
  have hrest : dst.bytes.drop n = [] := List.drop_eq_nil_of_le (le_of_eq dst.size)
  rw [receive_bytes_of_le dst src.bytes (le_of_eq src.size), src.size, hrest, List.append_nil]

theorem slice_of_append {b : Block n} {off len : ℕ} (pre mid post : Bytes)
    (h : off + len ≤ n) (hb : b.bytes = pre ++ mid ++ post)
    (hpre : pre.length = off) (hmid : mid.length = len) :
    (b.slice off len h).bytes = mid := by
  subst hpre hmid
  rw [slice_bytes, hb, List.append_assoc, List.drop_left' rfl, List.take_left' rfl]

/-- A slice of a slice. -/
theorem slice_slice (b : Block n) {off len off' len' : ℕ} (h : off + len ≤ n)
    (h' : off' + len' ≤ len) :
    (b.slice off len h).slice off' len' h' = b.slice (off + off') len' (by omega) := by
  apply ext
  rw [slice_bytes, slice_bytes, slice_bytes, List.drop_take, List.drop_drop, List.take_take,
    Nat.min_eq_left (by omega)]

end Block

/-- The string an array holds: its bytes up to the first NUL. -/
def cstr (mem : Bytes) : Bytes := mem.takeWhile (fun b => decide (b ≠ 0))

/-- Byte-wise comparison; an exhausted array reads as its terminator. -/
def strcmp : Bytes → Bytes → ℤ
  | [], [] => 0
  | [], b :: _ => -(b.toNat : ℤ)
  | a :: _, [] => a.toNat
  | a :: as, b :: bs =>
    if a = b then
      if a = 0 then 0 else strcmp as bs
    else (a.toNat : ℤ) - b.toNat

/-- `strncmp` looks at the first `n` bytes of both arrays. -/
def strncmp (a b : Bytes) (n : ℕ) : ℤ := strcmp (a.take n) (b.take n)

@[simp] theorem cstr_nil : cstr [] = [] := rfl

@[simp] theorem cstr_zero_cons (mem : Bytes) : cstr (0 :: mem) = [] := rfl

theorem cstr_cons_of_ne {b : UInt8} (hb : b ≠ 0) (mem : Bytes) :
    cstr (b :: mem) = b :: cstr mem := by
  simp [cstr, hb]

theorem cstr_cons (b : UInt8) (mem : Bytes) :
    cstr (b :: mem) = if b = 0 then [] else b :: cstr mem := by
  by_cases hb : b = 0
  · simp [hb]
  · simp [hb, cstr_cons_of_ne hb]

private theorem toNat_ne_zero {b : UInt8} (hb : b ≠ 0) : b.toNat ≠ 0 := by
  intro h
  apply hb
  exact UInt8.toNat_inj.mp (by simpa using h)

/-- `strcmp` reports equality exactly when both arrays hold the same string. -/
theorem strcmp_eq_zero_iff (a b : Bytes) : strcmp a b = 0 ↔ cstr a = cstr b := by
  induction a, b using strcmp.induct with
  | case1 => simp [strcmp]
  | case2 b bs =>
    by_cases hb : b = 0
    · simp [strcmp, hb]
    · simp [strcmp, cstr_cons_of_ne hb, toNat_ne_zero hb]
  | case3 a as =>
    by_cases ha : a = 0
    · simp [strcmp, ha]
    · simp [strcmp, cstr_cons_of_ne ha, toNat_ne_zero ha]
  | case4 as bs => simp [strcmp]
  | case5 as b bs hb ih => simp [strcmp, hb, cstr_cons_of_ne hb, ih]
  | case6 a as b bs hne =>
    have hval : (a.toNat : ℤ) - b.toNat ≠ 0 := by
      intro h
      apply hne
      apply UInt8.toNat_inj.mp
      omega
    have hstr : cstr (a :: as) ≠ cstr (b :: bs) := by
      rw [cstr_cons, cstr_cons]
      split <;> split <;> simp_all
    simp [strcmp, hne, hval, hstr]

theorem cstr_append_of_ne_zero {text : Bytes} (htext : ∀ b ∈ text, b ≠ 0) (rest : Bytes) :
    cstr (text ++ rest) = text ++ cstr rest := by
  induction text with
  | nil => rfl
  | cons b text ih =>
    rw [List.cons_append, cstr_cons_of_ne (htext b (List.mem_cons_self ..)),
      ih (fun c hc => htext c (List.mem_cons_of_mem b hc)), List.cons_append]

theorem cstr_append_zero {text : Bytes} (htext : ∀ b ∈ text, b ≠ 0) (rest : Bytes) :
    cstr (text ++ 0 :: rest) = text := by
  rw [cstr_append_of_ne_zero htext, cstr_zero_cons, List.append_nil]

theorem cstr_of_ne_zero {text : Bytes} (htext : ∀ b ∈ text, b ≠ 0) : cstr text = text := by
  simpa using cstr_append_of_ne_zero htext []

/-- Zero padding never shows in the string. -/
theorem cstr_append_replicate {text : Bytes} (htext : ∀ b ∈ text, b ≠ 0) (n : ℕ) :
    cstr (text ++ List.replicate n 0) = text := by
  cases n with
  | zero => simpa using cstr_of_ne_zero htext
  | succ n => exact cstr_append_zero htext _

theorem ne_zero_of_mem_cstr {mem : Bytes} {b : UInt8} (h : b ∈ cstr mem) : b ≠ 0 := by
  have := List.mem_takeWhile_imp h
  simpa using this

theorem cstr_take (mem : Bytes) (n : ℕ) : cstr (mem.take n) = (cstr mem).take n := by
  induction mem generalizing n with
  | nil => simp
  | cons b mem ih =>
    cases n with
    | zero => simp
    | succ n =>
      rw [List.take_succ_cons, cstr_cons, cstr_cons, ih]
      split <;> simp

theorem cstr_length_le (mem : Bytes) : (cstr mem).length ≤ mem.length :=
  (List.takeWhile_prefix _).length_le

/-- An array without a terminator is its own string. -/
theorem cstr_eq_self {mem : Bytes} (h : mem.length ≤ (cstr mem).length) : cstr mem = mem :=
  (List.takeWhile_prefix _).eq_of_length (le_antisymm (cstr_length_le mem) h)

/-- A terminator inside an array hides whatever follows it. -/
theorem cstr_append_of_lt {mem : Bytes} (rest : Bytes) (h : (cstr mem).length < mem.length) :
    cstr (mem ++ rest) = cstr mem := by
  induction mem with
  | nil => simp at h
  | cons b mem ih =>
    by_cases hb : b = 0
    · simp [hb]
    · rw [cstr_cons_of_ne hb, List.length_cons, List.length_cons] at h
      rw [List.cons_append, cstr_cons_of_ne hb, cstr_cons_of_ne hb, ih (by omega)]

/-- A string is shorter than its array exactly when a terminator is in the array. -/
theorem cstr_length_lt_iff (mem : Bytes) : (cstr mem).length < mem.length ↔ 0 ∈ mem := by
  induction mem with
  | nil => simp
  | cons b mem ih =>
    by_cases hb : b = 0
    · simp [hb]
    · rw [cstr_cons_of_ne hb, List.length_cons, List.length_cons, Nat.add_lt_add_iff_right, ih,
        List.mem_cons]
      exact (or_iff_right fun h => hb h.symm).symm

/-- What lies behind an array shows in the string only if the array has no terminator. -/
theorem cstr_append_eq_iff {a b : Bytes} (hlength : a.length = b.length) (x y : Bytes) :
    cstr (a ++ x) = cstr (b ++ y) ↔ cstr a = cstr b ∧ (0 ∉ a → cstr x = cstr y) := by
  induction a generalizing b with
  | nil =>
    rw [List.eq_nil_of_length_eq_zero hlength.symm]
    simp
  | cons c a ih =>
    cases b with
    | nil => cases hlength
    | cons d b =>
      have hrest := ih (Nat.succ.inj hlength)
      rw [List.cons_append, List.cons_append, cstr_cons, cstr_cons, cstr_cons, cstr_cons]
      by_cases hc : c = 0
      · by_cases hd : d = 0
        · simp [hc, hd]
        · simp [hc, hd]
      · by_cases hd : d = 0
        · simp [hc, hd]
        · have hmem : 0 ∉ c :: a ↔ 0 ∉ a := by
            rw [List.mem_cons, not_or]
            exact and_iff_right (Ne.symm hc)
          rw [if_neg hc, if_neg hd, if_neg hc, if_neg hd, List.cons.injEq, List.cons.injEq, hrest,
            hmem, and_assoc]

/-- Zeros behind an array do not change the string. -/
theorem cstr_append_zeros (mem : Bytes) (n : ℕ) : cstr (mem ++ List.replicate n 0) = cstr mem := by
  induction mem with
  | nil => cases n <;> rfl
  | cons b mem ih => rw [List.cons_append, cstr_cons, cstr_cons, ih]

/-- Appending the terminator does not change the string. -/
theorem cstr_terminated (mem : Bytes) : cstr (mem ++ [0]) = cstr mem := by
  induction mem with
  | nil => rfl
  | cons b mem ih => rw [List.cons_append, cstr_cons, cstr_cons, ih]

/-- Comparing as many bytes as a text has is a test for its being in front. -/
theorem strncmp_eq_zero_iff {text : Bytes} (htext : ∀ b ∈ text, b ≠ 0) (mem : Bytes) :
    strncmp mem text text.length = 0 ↔ text <+: mem := by
  rw [strncmp, strcmp_eq_zero_iff, List.take_length, cstr_of_ne_zero htext, cstr_take]
  constructor
  · intro h
    rw [← h]
    exact (List.take_prefix _ _).trans (List.takeWhile_prefix _)
  · rintro ⟨rest, rfl⟩
    rw [cstr_append_of_ne_zero htext, List.take_left' rfl]

end TopicBroker.ByteBlocks
