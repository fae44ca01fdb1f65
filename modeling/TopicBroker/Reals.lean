import Mathlib.Data.Rat.Floor
import Mathlib.Tactic.IntervalCases
import Mathlib.Tactic.NormNum
import TopicBroker.Decimals
import TopicBroker.Network
import TopicBroker.Rounding

/-!
The lines that a subscriber prints, down to their bytes, and what becomes of real
numbers. A `float` is IEEE binary32 with rounding to nearest: a sign, and a magnitude
that is exact arithmetic followed by a rounding. The format has a least exponent and no
largest one: the magnitudes of a subscriber stay far below the largest `float`.
-/
namespace TopicBroker.Reals

open ByteBlocks ByteOrder Message Frames Client CommandLine RoundTrip Network Decimals Rounding

/-- The magnitudes of a `float`. -/
def binary32 : Format := ⟨24, -149, by decide⟩

structure Single where
  negative : Bool
  magnitude : ℚ
  nonneg : 0 ≤ magnitude

/-- The conversion of an unsigned integer. -/
def ofWord (n : ℕ) : Single := ⟨false, binary32.round n, Format.round_nonneg (Nat.cast_nonneg n)⟩

/-- The division by a positive integer constant. -/
def Single.div (x : Single) (d : ℕ) : Single :=
  ⟨x.negative, binary32.round (x.magnitude / d),
    Format.round_nonneg (div_nonneg x.nonneg (Nat.cast_nonneg d))⟩

/-- The product with -1. -/
def Single.neg (x : Single) : Single := { x with negative := !x.negative }

/-- The loop of `convert_number`. -/
def divideTimes : ℕ → Single → Single
  | 0, p => p
  | k + 1, p => divideTimes k (p.div 10)

/-- The number is in host order already. -/
def convertNumber (number : UInt32) (point sign : UInt8) : Single :=
  let p := divideTimes point.toNat (ofWord number.toNat)
  if sign = 1 then p.neg else p

/-- The magnitude in units of the last of `count` decimals, as `printf` rounds it. -/
def Single.units (x : Single) (count : ℕ) : ℕ := (nearest (x.magnitude * 10 ^ count)).toNat

/-- The conversion of a `float` by `printf`; a zero keeps its sign. -/
def Single.text (x : Single) (count : ℕ) : Bytes := fixed count x.negative (x.units count)

/-- What is printed for a value; nothing is known of an INT whose negation overflows. -/
def valueText : Value → Option Bytes
  | .int p => p.map intText
  | .shortReal p => some (((ofWord p.toNat).div 100).text 2)
  | .float sign number point => some ((convertNumber number point sign).text 6)
  | .string text => some text

def typeText : Value → Bytes
  | .int _ => [73, 78, 84]
  | .shortReal _ => [83, 72, 79, 82, 84, 95, 82, 69, 65, 76]
  | .float _ _ _ => [70, 76, 79, 65, 84]
  | .string _ => [83, 84, 82, 73, 78, 71]

def separator : Bytes := [32, 45, 32]

/-- The line up to its value. -/
def heading (line : Line) : Bytes :=
  line.ip ++ 58 :: natText line.port.toNat ++ separator ++ line.topic ++ separator ++
    typeText line.value ++ separator

def lineText (line : Line) : Option Bytes :=
  (valueText line.value).map fun text => heading line ++ text ++ [newline]

/-- The value that a subscriber finds in a datagram: for an INT the `int` that it computes. -/
def carried (bytes : Bytes) : Option Value :=
  valueOf (publicationOf (padded bytes)).type (publicationOf (padded bytes)).content

/-- The line of a datagram on the standard output of a subscriber, with the text of its value. -/
def Prints (past bytes : Bytes) (addr : SockaddrIn) (text : Bytes) : Prop :=
  ∃ line, processMessage past (frameOf (padded bytes) addr) = .stdout line ∧
    lineText line = some (heading line ++ text ++ [newline])

section Lines

variable {past bytes text : Bytes} {addr : SockaddrIn} {value : Value}

theorem prints_carried (h : carried bytes = some value) (htext : valueText value = some text) :
    Prints past bytes addr text := by
  refine ⟨⟨inetNtoa addr.sinAddr, ntohs addr.sinPort, (publicationOf (padded bytes)).topic, value⟩,
    ?_, ?_⟩
  · have hvalue : valueOf (publicationOf (padded bytes)).type
      (publicationOf (padded bytes)).content = some value := h
    rw [processMessage_frameOf, announced, hvalue]
  · rw [lineText, htext, Option.map_some]

/-- The text of the value is determined. -/
theorem prints_iff (h : carried bytes = some value) {text' : Bytes}
    (htext : valueText value = some text) : Prints past bytes addr text' ↔ text' = text := by
  refine ⟨?_, fun heq => heq ▸ prints_carried h htext⟩
  rintro ⟨line, hline, hlong⟩
  have hvalue : valueOf (publicationOf (padded bytes)).type
    (publicationOf (padded bytes)).content = some value := h
  rw [processMessage_frameOf, announced, hvalue] at hline
  cases hline
  rw [lineText, htext, Option.map_some, Option.some.injEq] at hlong
  exact (List.append_cancel_left (List.append_cancel_right hlong)).symm

end Lines

section Magnitudes

theorem ofWord_magnitude (n : ℕ) : (ofWord n).magnitude = binary32.round (n : ℚ) := rfl

theorem div_magnitude (x : Single) (d : ℕ) :
    (x.div d).magnitude = binary32.round (x.magnitude / d) := rfl

theorem div_negative (x : Single) (d : ℕ) : (x.div d).negative = x.negative := rfl

theorem divideTimes_negative (k : ℕ) (x : Single) : (divideTimes k x).negative = x.negative := by
  induction k generalizing x with
  | zero => rfl
  | succ k ih => rw [divideTimes, ih, div_negative]

theorem convertNumber_negative (number : UInt32) (point sign : UInt8) :
    (convertNumber number point sign).negative = decide (sign = 1) := by
  unfold convertNumber
  by_cases hsign : sign = 1
  · simp [hsign, Single.neg, divideTimes_negative, ofWord]
  · simp [hsign, divideTimes_negative, ofWord]

theorem convertNumber_magnitude (number : UInt32) (point sign : UInt8) :
    (convertNumber number point sign).magnitude =
      (divideTimes point.toNat (ofWord number.toNat)).magnitude := by
  unfold convertNumber
  split <;> rfl

/-- A number that was rounded this many times. -/
theorem divideTimes_near {count : ℕ} {p : Single} {x : ℚ} (h : Near binary32 count p.magnitude x)
    (k : ℕ) : Near binary32 (count + k) (divideTimes k p).magnitude (x / 10 ^ k) := by
  induction k generalizing count p x with
  | zero =>
    rw [pow_zero, div_one]
    exact h
  | succ k ih =>
    have hstep : Near binary32 (count + 1) (p.div 10).magnitude (x / 10) :=
      h.div (by norm_num)
    have hrest := ih hstep
    rw [div_div, ← pow_succ', add_assoc, add_comm 1 k] at hrest
    exact hrest

theorem convertNumber_near (number : UInt32) (point sign : UInt8) :
    Near binary32 (point.toNat + 1) (convertNumber number point sign).magnitude
      (number.toNat / 10 ^ point.toNat) := by
  have hword : Near binary32 1 (ofWord number.toNat).magnitude (number.toNat : ℚ) :=
    Near.round binary32 (Nat.cast_nonneg _)
  rw [convertNumber_magnitude, add_comm]
  exact divideTimes_near hword point.toNat

theorem round_le_word {x : ℚ} (hx : 0 ≤ x) (h : x ≤ 2 ^ 32) : binary32.round x ≤ 2 ^ 32 := by
  have hkept := (Format.round_natCast_iff (K := ℚ) (f := binary32) (2 ^ 32) (by decide)).mpr
    (by rw [Nat.log_pow (by norm_num)]; decide)
  have hround := Format.round_mono (f := binary32) hx (h.trans_eq (by norm_num :
    (2 : ℚ) ^ 32 = ((2 ^ 32 : ℕ) : ℚ)))
  rw [hkept] at hround
  exact_mod_cast hround

theorem divideTimes_le (k : ℕ) {x : Single} (h : x.magnitude ≤ 2 ^ 32) :
    (divideTimes k x).magnitude ≤ 2 ^ 32 := by
  induction k generalizing x with
  | zero => exact h
  | succ k ih =>
    have hten : x.magnitude / (10 : ℕ) ≤ x.magnitude := div_le_self x.nonneg (by norm_num)
    exact ih (round_le_word (div_nonneg x.nonneg (by norm_num)) (hten.trans h))

/-- No magnitude of `convert_number` comes near the largest `float`. -/
theorem quotients_le (number : UInt32) (k : ℕ) :
    (divideTimes k (ofWord number.toNat)).magnitude ≤ 2 ^ 32 := by
  have hnumber : (number.toNat : ℚ) ≤ 2 ^ 32 := by exact_mod_cast number.toNat_lt.le
  exact divideTimes_le k (round_le_word (Nat.cast_nonneg _) hnumber)

theorem div_mono {x y : Single} (h : x.magnitude ≤ y.magnitude) (d : ℕ) :
    (x.div d).magnitude ≤ (y.div d).magnitude :=
  Format.round_mono (div_nonneg x.nonneg (Nat.cast_nonneg d))
    (div_le_div_of_nonneg_right h (Nat.cast_nonneg d))

theorem divideTimes_mono {x y : Single} (h : x.magnitude ≤ y.magnitude) (k : ℕ) :
    (divideTimes k x).magnitude ≤ (divideTimes k y).magnitude := by
  induction k generalizing x y with
  | zero => exact h
  | succ k ih => exact ih (div_mono h 10)

end Magnitudes

section Texts

theorem units_cast (x : Single) (count : ℕ) :
    ((x.units count : ℕ) : ℚ) = nearest (x.magnitude * 10 ^ count) := by
  have hnonneg : 0 ≤ nearest (x.magnitude * 10 ^ count) :=
    nearest_nonneg (mul_nonneg x.nonneg (by positivity))
  have hint : ((x.units count : ℕ) : ℤ) = nearest (x.magnitude * 10 ^ count) :=
    Int.toNat_of_nonneg hnonneg
  rw [← hint, Int.cast_natCast]

/-- Printing rounds by half a unit of the last decimal. -/
theorem units_error (x : Single) (count : ℕ) :
    |(x.units count : ℚ) / 10 ^ count - x.magnitude| ≤ 1 / 2 / 10 ^ count := by
  have hpow : (0 : ℚ) < 10 ^ count := by positivity
  have herror := nearest_error (x.magnitude * 10 ^ count)
  rw [← units_cast] at herror
  have hscale : (x.units count : ℚ) / 10 ^ count - x.magnitude =
      (x.units count - x.magnitude * 10 ^ count) / 10 ^ count := by
    rw [sub_div, mul_div_cancel_right₀ _ hpow.ne']
  rw [hscale, abs_div, abs_of_pos hpow]
  exact div_le_div_of_nonneg_right herror hpow.le

theorem units_mono {x y : Single} (h : x.magnitude ≤ y.magnitude) (count : ℕ) :
    x.units count ≤ y.units count :=
  Int.toNat_le_toNat (nearest_mono (mul_le_mul_of_nonneg_right h (by positivity)))

theorem units_eq {x : Single} {count n : ℕ} (h : |x.magnitude * 10 ^ count - n| < 1 / 2) :
    x.units count = n := by
  rw [Single.units, nearest_eq (n := (n : ℤ)) (by exact_mod_cast h), Int.toNat_natCast]

theorem readFixed_text (x : Single) (count : ℕ) :
    readFixed (x.text count) = (if x.negative then -1 else 1) * (x.units count / 10 ^ count) :=
  readFixed_fixed count x.negative (x.units count)

end Texts

/-- A datagram on a topic of fifty letters. -/
def datagramOf (type : UInt8) (fields : Bytes) : Bytes := List.replicate topicLen 97 ++ type :: fields

section Printing

variable {bytes bytes' : Bytes} {p : UInt16} {sign sign' : UInt8} {number number' : UInt32}
  {point : UInt8}

/-- Two decimals of a `float` are enough for hundredths of a word. -/
theorem shortReal_text (p : UInt16) : ((ofWord p.toNat).div 100).text 2 = fixed 2 false p.toNat := by
  have hp : (p.toNat : ℚ) ≤ 65535 := by
    have hlt : p.toNat < 65536 := p.toNat_lt
    exact_mod_cast (show p.toNat ≤ 65535 by omega)
  have hnear : Near binary32 2 ((ofWord p.toNat).div 100).magnitude ((p.toNat : ℚ) / 100) :=
    (Near.round binary32 (Nat.cast_nonneg p.toNat)).div (by norm_num)
  have hunits : ((ofWord p.toNat).div 100).units 2 = p.toNat := by
    apply units_eq
    have herror := hnear.error
    have hscale : ((ofWord p.toNat).div 100).magnitude * 10 ^ 2 - p.toNat =
        (((ofWord p.toNat).div 100).magnitude - (p.toNat : ℚ) / 100) * 100 := by ring
    rw [hscale, abs_mul]
    norm_num [binary32] at herror ⊢
    linarith
  rw [Single.text, hunits]
  rfl

/-- Every SHORT_REAL is printed as published. -/
theorem shortReal_printed (h : carried bytes = some (.shortReal p)) (past : Bytes)
    (addr : SockaddrIn) : Prints past bytes addr (fixed 2 false p.toNat) := by
  refine prints_carried h ?_
  rw [valueText, shortReal_text]

theorem shortReal_printed_greatest :
    Prints [] (datagramOf 1 [255, 255]) (.ofSender ⟨127, 0, 0, 1⟩ 8080) (fixed 2 false 65535) :=
  shortReal_printed
    (show carried (datagramOf 1 [255, 255]) = some (.shortReal 65535) by decide +kernel) [] _

/-- The number that a sign, an integer and a count of decimals stand for. -/
def published (sign : UInt8) (number : UInt32) (point : UInt8) : ℚ :=
  (if sign = 1 then -1 else 1) * (number.toNat / 10 ^ point.toNat)

theorem float_prints (h : carried bytes = some (.float sign number point)) (past : Bytes)
    (addr : SockaddrIn) :
    Prints past bytes addr ((convertNumber number point sign).text 6) :=
  prints_carried h rfl

theorem readFixed_convertNumber (number : UInt32) (point sign : UInt8) (count : ℕ) :
    readFixed ((convertNumber number point sign).text count) =
      (if sign = 1 then -1 else 1) * ((convertNumber number point sign).units count / 10 ^ count) := by
  rw [readFixed_text, convertNumber_negative]
  simp only [decide_eq_true_eq]

/-- The number that is read in the line of a FLOAT is close to the published one: every
rounding adds its relative error, and printing half a millionth. No quotient on the way is
out of the range of a `float`. -/
theorem float_printed (h : carried bytes = some (.float sign number point)) (past : Bytes)
    (addr : SockaddrIn) :
    ∃ text, Prints past bytes addr text ∧
      |readFixed text - published sign number point| ≤
        number.toNat / 10 ^ point.toNat * ((1 + 2 ^ (-24 : ℤ)) ^ (point.toNat + 1) - 1) +
          2 ^ (-149 : ℤ) + 1 / 2 / 10 ^ 6 ∧
      ∀ k, (divideTimes k (ofWord number.toNat)).magnitude ≤ 2 ^ 32 := by
  refine ⟨_, float_prints h past addr, ?_, quotients_le number⟩
  have hnear := (convertNumber_near number point sign).error
  have hunits := units_error (convertNumber number point sign) 6
  have hsum := abs_sub_le (((convertNumber number point sign).units 6 : ℚ) / 10 ^ 6)
    (convertNumber number point sign).magnitude (number.toNat / 10 ^ point.toNat)
  have hsign : |(if sign = 1 then -1 else 1 : ℚ)| = 1 := by split <;> simp
  rw [readFixed_convertNumber, published, ← mul_sub, abs_mul, hsign, one_mul]
  refine hsum.trans ((add_le_add hunits hnear).trans_eq ?_)
  rw [add_comm]
  rfl

theorem float_printed_decimals :
    ∃ text, Prints [] (datagramOf 2 [1, 0, 1, 226, 64, 2]) (.ofSender ⟨127, 0, 0, 1⟩ 8080) text ∧
      |readFixed text - published 1 123456 2| ≤
        123456 / 10 ^ 2 * ((1 + 2 ^ (-24 : ℤ)) ^ 3 - 1) + 2 ^ (-149 : ℤ) + 1 / 2 / 10 ^ 6 ∧
      ∀ k, (divideTimes k (ofWord 123456)).magnitude ≤ 2 ^ 32 :=
  float_printed
    (show carried (datagramOf 2 [1, 0, 1, 226, 64, 2]) = some (.float 1 123456 2) by decide +kernel)
    [] _

/-- The magnitude that is printed, in units of the last decimal. -/
theorem convertNumber_units (number : UInt32) (point sign : UInt8) (count : ℕ) :
    (convertNumber number point sign).units count =
      (divideTimes point.toNat (ofWord number.toNat)).units count := by
  rw [Single.units, convertNumber_magnitude, Single.units]

theorem ofWord_mono {n n' : ℕ} (h : n ≤ n') : (ofWord n).magnitude ≤ (ofWord n').magnitude :=
  Format.round_mono (Nat.cast_nonneg n) (Nat.cast_le.mpr h)

theorem divideTimes_zero (k : ℕ) {x : Single} (h : x.magnitude = 0) :
    (divideTimes k x).magnitude = 0 := by
  induction k generalizing x with
  | zero => exact h
  | succ k ih =>
    apply ih
    rw [div_magnitude, h, zero_div, Format.round_zero]

/-- A monotone function of the magnitude keeps the order of numbers with signs. -/
theorem signed_mono {g : ℕ → ℕ} (hg : Monotone g) (hzero : g 0 = 0) {s s' : Prop} [Decidable s]
    [Decidable s'] {n n' : ℕ}
    (h : (if s then -1 else 1) * (n : ℚ) ≤ (if s' then -1 else 1) * n') :
    (if s then -1 else 1) * (g n : ℚ) ≤ (if s' then -1 else 1) * g n' := by
  have hgrow {m m' : ℕ} (hle : (m : ℚ) ≤ m') : (g m : ℚ) ≤ g m' :=
    Nat.cast_le.mpr (hg (Nat.cast_le.mp hle))
  have hn : (0 : ℚ) ≤ n := Nat.cast_nonneg n
  have hn' : (0 : ℚ) ≤ n' := Nat.cast_nonneg n'
  have hgn : (0 : ℚ) ≤ g n := Nat.cast_nonneg (g n)
  have hgn' : (0 : ℚ) ≤ g n' := Nat.cast_nonneg (g n')
  by_cases hs : s <;> by_cases hs' : s' <;> simp only [hs, hs', if_true, if_false] at h ⊢
  · have hless := hgrow (show (n' : ℚ) ≤ n by linarith)
    linarith
  · linarith
  · -- Only two zeros are in this order.
    have hz : n = 0 := by exact_mod_cast (show (n : ℚ) = 0 by linarith)
    have hz' : n' = 0 := by exact_mod_cast (show (n' : ℚ) = 0 by linarith)
    rw [hz, hz', hzero]
    norm_num
  · have hless := hgrow (show (n : ℚ) ≤ n' by linarith)
    linarith

/-- Of two numbers with the same count of decimals, the lines keep the order. -/
theorem float_order (h : carried bytes = some (.float sign number point))
    (h' : carried bytes' = some (.float sign' number' point))
    (hle : published sign number point ≤ published sign' number' point) (past past' : Bytes)
    (addr addr' : SockaddrIn) :
    ∃ text text', Prints past bytes addr text ∧ Prints past' bytes' addr' text' ∧
      readFixed text ≤ readFixed text' := by
  refine ⟨_, _, float_prints h past addr, float_prints h' past' addr', ?_⟩
  have hmono : Monotone fun n => (divideTimes point.toNat (ofWord n)).units 6 :=
    fun n n' hle => units_mono (divideTimes_mono (ofWord_mono hle) point.toNat) 6
  have hzero : (divideTimes point.toNat (ofWord 0)).units 6 = 0 := by
    apply units_eq
    have hword : (ofWord 0).magnitude = 0 := by rw [ofWord_magnitude, Nat.cast_zero, Format.round_zero]
    rw [divideTimes_zero point.toNat hword]
    norm_num
  rw [published, published, ← mul_div_assoc, ← mul_div_assoc,
    div_le_div_iff_of_pos_right (by positivity)] at hle
  have hsigned := signed_mono hmono hzero hle
  rw [readFixed_convertNumber, readFixed_convertNumber, convertNumber_units, convertNumber_units,
    ← mul_div_assoc, ← mul_div_assoc]
  exact div_le_div_of_nonneg_right hsigned (by positivity)

theorem float_order_signs :
    ∃ text text', Prints [] (datagramOf 2 [1, 0, 0, 0, 7, 3]) (.ofSender ⟨127, 0, 0, 1⟩ 8080) text ∧
      Prints [] (datagramOf 2 [0, 0, 0, 0, 9, 3]) (.ofSender ⟨127, 0, 0, 1⟩ 8080) text' ∧
      readFixed text ≤ readFixed text' :=
  float_order
    (show carried (datagramOf 2 [1, 0, 0, 0, 7, 3]) = some (.float 1 7 3) by decide +kernel)
    (show carried (datagramOf 2 [0, 0, 0, 0, 9, 3]) = some (.float 0 9 3) by decide +kernel)
    (by decide +kernel) [] [] _ _

/-- What up to seven roundings can add. -/
theorem growth_le {k : ℕ} (h : k ≤ 6) :
    ((1 + 2 ^ (-(binary32.precision : ℤ))) ^ (k + 1) - 1 : ℚ) ≤ (k + 1) * (33 / 2 ^ 29) := by
  change ((1 + 2 ^ (-24 : ℤ)) ^ (k + 1) - 1 : ℚ) ≤ (k + 1) * (33 / 2 ^ 29)
  interval_cases k <;> norm_num

/-- A number with at most six decimals is printed exactly up to eight, over one more than
their count. -/
theorem float_exact (h : carried bytes = some (.float sign number point)) (hpoint : point.toNat ≤ 6)
    (hnumber : number.toNat * (point.toNat + 1) ≤ 8 * 10 ^ point.toNat) (past : Bytes)
    (addr : SockaddrIn) :
    Prints past bytes addr
      (fixed 6 (decide (sign = 1)) (number.toNat * 10 ^ (6 - point.toNat))) := by
  have hunits : (convertNumber number point sign).units 6 =
      number.toNat * 10 ^ (6 - point.toNat) := by
    apply units_eq
    have herror := (convertNumber_near number point sign).error
    have hscale : (number.toNat : ℚ) * 10 ^ (6 - point.toNat) =
        number.toNat / 10 ^ point.toNat * 10 ^ 6 := by
      rw [div_mul_eq_mul_div, eq_div_iff (by positivity), mul_assoc, ← pow_add,
        Nat.sub_add_cancel hpoint]
    have hsmall : (number.toNat : ℚ) / 10 ^ point.toNat * (point.toNat + 1) ≤ 8 := by
      rw [div_mul_eq_mul_div, div_le_iff₀ (by positivity)]
      exact_mod_cast hnumber
    have hgrowth := mul_le_mul_of_nonneg_left (growth_le hpoint)
      (show (0 : ℚ) ≤ number.toNat / 10 ^ point.toNat by positivity)
    push_cast
    rw [hscale, ← sub_mul, abs_mul]
    norm_num [binary32] at herror hgrowth ⊢
    linarith
  refine prints_carried h ?_
  rw [valueText, Single.text, convertNumber_negative, hunits]

theorem float_exact_decimals :
    Prints [] (datagramOf 2 [1, 0, 0, 0, 250, 2]) (.ofSender ⟨127, 0, 0, 1⟩ 8080)
      (fixed 6 true 2500000) :=
  float_exact
    (show carried (datagramOf 2 [1, 0, 0, 0, 250, 2]) = some (.float 1 250 2) by decide +kernel)
    (by decide) (by decide) [] _

/-- An integer is printed as the `float` that it rounds to, and so exactly if and only if it
has at most 24 binary digits before its zeros. -/
theorem integer_printed_iff (h : carried bytes = some (.float sign number 0)) (past : Bytes)
    (addr : SockaddrIn) :
    (Prints past bytes addr (fixed 6 (decide (sign = 1)) (number.toNat * 10 ^ 6)) ↔
      2 ^ (Nat.log 2 number.toNat + 1 - 24) ∣ number.toNat) ∧
    ∃ m : ℕ, binary32.round (number.toNat : ℚ) = m ∧
      Prints past bytes addr (fixed 6 (decide (sign = 1)) (m * 10 ^ 6)) := by
  have hkept := Format.round_natCast_iff (K := ℚ) (f := binary32) number.toNat (by decide)
  obtain ⟨m, hm⟩ := Format.round_natCast_integer (K := ℚ) (f := binary32) number.toNat (by decide)
  have hunits : (convertNumber number 0 sign).units 6 = m * 10 ^ 6 := by
    apply units_eq
    rw [convertNumber_magnitude]
    have hmagnitude : (divideTimes (0 : UInt8).toNat (ofWord number.toNat)).magnitude = m := hm
    rw [hmagnitude]
    norm_num
  have hprints : ∀ k : ℕ, Prints past bytes addr (fixed 6 (decide (sign = 1)) (k * 10 ^ 6)) ↔
      k = m := by
    intro k
    rw [prints_iff h rfl, Single.text, convertNumber_negative, hunits, fixed_inj]
    norm_num
  refine ⟨?_, m, hm, (hprints m).mpr rfl⟩
  rw [hprints, ← show binary32.precision = 24 from rfl, ← hkept, hm]
  norm_num [eq_comm]

theorem integer_printed_iff_odd :
    (Prints [] (datagramOf 2 [0, 1, 0, 0, 1, 0]) (.ofSender ⟨127, 0, 0, 1⟩ 8080)
        (fixed 6 false (16777217 * 10 ^ 6)) ↔
      2 ^ (Nat.log 2 16777217 + 1 - 24) ∣ 16777217) ∧
    ∃ m : ℕ, binary32.round (16777217 : ℚ) = m ∧
      Prints [] (datagramOf 2 [0, 1, 0, 0, 1, 0]) (.ofSender ⟨127, 0, 0, 1⟩ 8080)
        (fixed 6 false (m * 10 ^ 6)) :=
  integer_printed_iff
    (show carried (datagramOf 2 [0, 1, 0, 0, 1, 0]) = some (.float 0 16777217 0) by decide +kernel)
    [] _

end Printing

end TopicBroker.Reals
