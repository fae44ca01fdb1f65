import Mathlib.Data.Nat.Log
import Mathlib.Data.Rat.Cast.Order
import Mathlib.Tactic.FieldSimp
import Mathlib.Tactic.Linarith
import Mathlib.Tactic.Ring
import TopicBroker.ByteBlocks

/-!
Decimal texts. A natural number has no leading zeros, and a number with a fixed count of
decimals is given by its sign and its multiple of the last decimal. Reading a text back
gives the number that was written.
-/
namespace TopicBroker.Decimals

open ByteBlocks

/-- The last `count` digits of a number. -/
def digits : ℕ → ℕ → Bytes
  | 0, _ => []
  | count + 1, n => digits count (n / 10) ++ [UInt8.ofNat (48 + n % 10)]

def natText (n : ℕ) : Bytes := digits (Nat.log 10 n + 1) n

abbrev minus : UInt8 := 45

abbrev point : UInt8 := 46

def intText (n : ℤ) : Bytes := if n < 0 then minus :: natText n.natAbs else natText n.natAbs

/-- The text of `n` units of the last of `count` decimals. -/
def fixed (count : ℕ) (negative : Bool) (n : ℕ) : Bytes :=
  (if negative then [minus] else []) ++ natText (n / 10 ^ count) ++
    point :: digits count (n % 10 ^ count)

/-- The value of a text of digits. -/
def decimal (text : Bytes) : ℕ := text.foldl (fun n b => 10 * n + (b.toNat - 48)) 0

/-- The value of the text of a number with decimals. -/
def readFixed (text : Bytes) : ℚ :=
  let unsigned := if text.head? = some minus then text.tail else text
  let part := (unsigned.dropWhile (· ≠ point)).tail
  let x : ℚ := decimal (unsigned.takeWhile (· ≠ point)) + decimal part / 10 ^ part.length
  if text.head? = some minus then -x else x

theorem digit_toNat (n : ℕ) : (UInt8.ofNat (48 + n % 10)).toNat = 48 + n % 10 := by
  rw [UInt8.toNat_ofNat']
  omega

theorem digits_length (count n : ℕ) : (digits count n).length = count := by
  induction count generalizing n with
  | zero => rfl
  | succ count ih => rw [digits, List.length_append, ih, List.length_singleton]

theorem digits_range (count n : ℕ) : ∀ b ∈ digits count n, 48 ≤ b.toNat ∧ b.toNat ≤ 57 := by
  induction count generalizing n with
  | zero => simp [digits]
  | succ count ih =>
    intro b hb
    rw [digits, List.mem_append, List.mem_singleton] at hb
    rcases hb with hb | rfl
    · exact ih (n / 10) b hb
    · rw [digit_toNat]
      omega

theorem decimal_digits (count n : ℕ) : decimal (digits count n) = n % 10 ^ count := by
  induction count generalizing n with
  | zero => simp [digits, decimal, Nat.mod_one]
  | succ count ih =>
    have hfold : decimal (digits (count + 1) n) =
        10 * decimal (digits count (n / 10)) + (48 + n % 10 - 48) := by
      rw [digits, decimal, List.foldl_append, List.foldl_cons, List.foldl_nil, digit_toNat]
      rfl
    rw [hfold, ih, Nat.pow_succ', Nat.mod_mul]
    omega

theorem decimal_natText (n : ℕ) : decimal (natText n) = n := by
  rw [natText, decimal_digits]
  exact Nat.mod_eq_of_lt (Nat.lt_pow_succ_log_self (by decide) n)

private theorem digits_ne {count n : ℕ} {c : UInt8} (hc : c.toNat < 48) :
    ∀ b ∈ digits count n, b ≠ c := by
  rintro b hb rfl
  have hrange := digits_range count n b hb
  omega

private theorem natText_cons (n : ℕ) : ∃ b rest, natText n = b :: rest ∧ 48 ≤ b.toNat := by
  cases htext : natText n with
  | nil =>
    have hlength := digits_length (Nat.log 10 n + 1) n
    rw [← natText, htext] at hlength
    cases hlength
  | cons b rest =>
    refine ⟨b, rest, rfl, (digits_range (Nat.log 10 n + 1) n b ?_).1⟩
    rw [← natText, htext]
    exact List.mem_cons_self ..

/-- A text is read back. -/
theorem readFixed_fixed (count : ℕ) (negative : Bool) (n : ℕ) :
    readFixed (fixed count negative n) = (if negative then -1 else 1) * (n / 10 ^ count) := by
  generalize hbody : natText (n / 10 ^ count) ++ point :: digits count (n % 10 ^ count) = body
  have htext : fixed count negative n = (if negative then [minus] else []) ++ body := by
    rw [fixed, List.append_assoc, hbody]
  have hne : ∀ b ∈ natText (n / 10 ^ count), b ≠ point := digits_ne (by decide)
  have hwhole : body.takeWhile (· ≠ point) = natText (n / 10 ^ count) := by
    rw [← hbody, List.takeWhile_append_of_pos (by simpa using hne)]
    simp
  have hpart : (body.dropWhile (· ≠ point)).tail = digits count (n % 10 ^ count) := by
    rw [← hbody, List.dropWhile_append_of_pos (by simpa using hne)]
    simp
  have hpow : (10 : ℚ) ^ count ≠ 0 := by positivity
  have hvalue : ((n / 10 ^ count : ℕ) : ℚ) + ((n % 10 ^ count : ℕ) : ℚ) / 10 ^ count =
      n / 10 ^ count := by
    have hsplit : ((10 ^ count * (n / 10 ^ count) + n % 10 ^ count : ℕ) : ℚ) = n := by
      rw [Nat.div_add_mod]
    push_cast at hsplit
    rw [eq_div_iff hpow, add_mul, div_mul_cancel₀ _ hpow]
    linarith
  have hread : (decimal (body.takeWhile (· ≠ point)) : ℚ) +
      decimal ((body.dropWhile (· ≠ point)).tail) /
        10 ^ ((body.dropWhile (· ≠ point)).tail).length = n / 10 ^ count := by
    rw [hwhole, hpart, decimal_natText, decimal_digits, digits_length, Nat.mod_mod, hvalue]
  cases negative with
  | true =>
    rw [htext, readFixed]
    simp only [if_true, List.cons_append, List.nil_append, List.head?_cons, List.tail_cons]
    rw [hread, neg_one_mul]
  | false =>
    obtain ⟨b, rest, hfirst, hb⟩ := natText_cons (n / 10 ^ count)
    have hhead : body.head? ≠ some minus := by
      rw [← hbody, hfirst]
      simp only [List.cons_append, List.head?_cons, ne_eq, Option.some.injEq]
      rintro rfl
      exact absurd hb (by decide)
    rw [htext, readFixed]
    simp only [Bool.false_eq_true, if_false, List.nil_append, if_neg hhead]
    rw [hread, one_mul]

theorem fixed_inj {count : ℕ} {negative : Bool} {n m : ℕ} :
    fixed count negative n = fixed count negative m ↔ n = m := by
  refine ⟨fun h => ?_, fun h => by rw [h]⟩
  have hread := congrArg readFixed h
  have hpow : (10 : ℚ) ^ count ≠ 0 := by positivity
  have hsign : (if negative = true then -1 else 1 : ℚ) ≠ 0 := by cases negative <;> norm_num
  rw [readFixed_fixed, readFixed_fixed] at hread
  exact_mod_cast (div_left_inj' hpow).mp (mul_left_cancel₀ hsign hread)

end TopicBroker.Decimals
