import Mathlib.Algebra.Order.Floor.Ring
import Mathlib.Algebra.Order.Round
import Mathlib.Data.Int.Log
import Mathlib.Tactic.FieldSimp
import Mathlib.Tactic.Linarith
import Mathlib.Tactic.Positivity
import Mathlib.Tactic.Ring

/-!
Rounding to the nearest, ties to even: to an integer, and to a binary floating-point
format with a precision and a least exponent. A format has no largest value here. The
error is half a unit in the last place, integers of the precision are kept, and
rounding is monotone.
-/
namespace TopicBroker.Rounding

variable {K : Type*} [Field K] [LinearOrder K] [FloorRing K]

/-- The nearest integer, of two the even one. -/
def nearest (x : K) : ℤ :=
  if 2 * Int.fract x < 1 ∨ (2 * Int.fract x = 1 ∧ ⌊x⌋ % 2 = 0) then ⌊x⌋ else ⌊x⌋ + 1

theorem nearest_cases (x : K) :
    (nearest x = ⌊x⌋ ∧ 2 * Int.fract x ≤ 1) ∨ (nearest x = ⌊x⌋ + 1 ∧ 1 ≤ 2 * Int.fract x) := by
  unfold nearest
  split
  · rename_i h
    rcases h with hlt | ⟨heq, _⟩
    · exact Or.inl ⟨rfl, hlt.le⟩
    · exact Or.inl ⟨rfl, heq.le⟩
  · rename_i h
    rw [not_or] at h
    exact Or.inr ⟨rfl, not_lt.mp h.1⟩

variable [IsStrictOrderedRing K]

section Integers

variable {x y : K}

theorem nearest_error (x : K) : |(nearest x : K) - x| ≤ 1 / 2 := by
  have hsplit := Int.floor_add_fract x
  rcases nearest_cases x with ⟨heq, hfract⟩ | ⟨heq, hfract⟩
  · rw [heq, abs_le]
    have hnonneg := Int.fract_nonneg x
    constructor <;> linarith
  · rw [heq, abs_le]
    have hlt := Int.fract_lt_one x
    push_cast
    constructor <;> linarith

theorem nearest_eq {n : ℤ} (h : |x - n| < 1 / 2) : nearest x = n := by
  have herror := nearest_error x
  have hdiff : |((nearest x - n : ℤ) : K)| < 1 := by
    push_cast
    have htriangle := abs_sub_le (nearest x : K) x n
    linarith
  have hzero : nearest x - n = 0 := Int.abs_lt_one_iff.mp (by exact_mod_cast hdiff)
  omega

theorem nearest_intCast (n : ℤ) : nearest (n : K) = n := by
  apply nearest_eq
  rw [sub_self, abs_zero]
  positivity

theorem nearest_mono (h : x ≤ y) : nearest x ≤ nearest y := by
  have hfloor := Int.floor_mono h
  by_cases heq : ⌊x⌋ = ⌊y⌋
  · have hfract : Int.fract x ≤ Int.fract y := by
      rw [Int.fract, Int.fract, heq]
      linarith
    unfold nearest
    rw [heq]
    split
    · split <;> omega
    · rename_i hx
      rw [if_neg]
      rintro (hlt | ⟨hhalf, heven⟩)
      · exact hx (Or.inl (by linarith))
      · rcases lt_or_eq_of_le hfract with hlt | hsame
        · exact hx (Or.inl (by linarith))
        · exact hx (Or.inr ⟨by rw [hsame]; exact hhalf, heven⟩)
  · have hlt : ⌊x⌋ + 1 ≤ ⌊y⌋ := by omega
    rcases nearest_cases x with ⟨hx, _⟩ | ⟨hx, _⟩ <;> rcases nearest_cases y with ⟨hy, _⟩ | ⟨hy, _⟩ <;>
      omega

theorem nearest_nonneg (h : 0 ≤ x) : 0 ≤ nearest x := by
  have hzero : nearest (0 : K) = 0 := by exact_mod_cast nearest_intCast (K := K) 0
  rw [← hzero]
  exact nearest_mono h

end Integers

/-- `least` is the exponent of the least unit in the last place. -/
structure Format where
  precision : ℕ
  least : ℤ
  pos : 0 < precision

/-- The exponent of the unit in the last place of a magnitude. -/
def Format.unit (f : Format) (x : K) : ℤ := max (Int.log 2 x + 1 - f.precision) f.least

/-- The rounded magnitude. -/
def Format.round (f : Format) (x : K) : K := nearest (x / 2 ^ f.unit x) * 2 ^ f.unit x

section Formats

variable {f : Format} {x y : K}

theorem two_zpow_pos (n : ℤ) : (0 : K) < 2 ^ n := zpow_pos (by norm_num) n

theorem zpow_log_le (h : 0 < x) : (2 : K) ^ Int.log 2 x ≤ x := by
  exact_mod_cast Int.zpow_log_le_self (b := 2) (by norm_num) h

theorem lt_zpow_log (x : K) : x < 2 ^ (Int.log 2 x + 1) := by
  exact_mod_cast Int.lt_zpow_succ_log_self (b := 2) (by norm_num) x

theorem Format.round_zero (f : Format) : f.round (0 : K) = 0 := by
  have hzero : nearest (0 : K) = 0 := by exact_mod_cast nearest_intCast (K := K) 0
  rw [Format.round, zero_div, hzero, Int.cast_zero, zero_mul]

theorem Format.round_nonneg (h : 0 ≤ x) : 0 ≤ f.round x := by
  have hunit := two_zpow_pos (K := K) (f.unit x)
  have hnearest : (0 : K) ≤ nearest (x / 2 ^ f.unit x) := by
    exact_mod_cast nearest_nonneg (div_nonneg h hunit.le)
  exact mul_nonneg hnearest hunit.le

/-- Half a unit in the last place. -/
theorem Format.round_error (f : Format) (x : K) : |f.round x - x| ≤ 2 ^ f.unit x / 2 := by
  have hunit := two_zpow_pos (K := K) (f.unit x)
  have herror := nearest_error (x / 2 ^ f.unit x)
  have hscale : f.round x - x = (nearest (x / 2 ^ f.unit x) - x / 2 ^ f.unit x) * 2 ^ f.unit x := by
    rw [Format.round]
    field_simp
  rw [hscale, abs_mul, abs_of_pos hunit]
  calc |(nearest (x / 2 ^ f.unit x) : K) - x / 2 ^ f.unit x| * 2 ^ f.unit x
      ≤ 1 / 2 * 2 ^ f.unit x := mul_le_mul_of_nonneg_right herror hunit.le
    _ = 2 ^ f.unit x / 2 := by ring

/-- The unit of a magnitude that is not too small for the precision. -/
theorem unit_le (h : 0 < x) :
    (2 : K) ^ (Int.log 2 x + 1 - f.precision) ≤ 2 * (x * 2 ^ (-(f.precision : ℤ))) := by
  have hsplit : (2 : K) ^ (Int.log 2 x + 1 - f.precision) =
      2 * (2 ^ Int.log 2 x * 2 ^ (-(f.precision : ℤ))) := by
    rw [sub_eq_add_neg, zpow_add₀ (by norm_num), zpow_add₀ (by norm_num), zpow_one]
    ring
  rw [hsplit]
  have hpow := two_zpow_pos (K := K) (-(f.precision : ℤ))
  have hlog := mul_le_mul_of_nonneg_right (zpow_log_le h) hpow.le
  linarith

/-- The error relative to the magnitude, and half the least unit for small magnitudes. -/
theorem Format.round_error_le (f : Format) (h : 0 ≤ x) :
    |f.round x - x| ≤ x * 2 ^ (-(f.precision : ℤ)) + 2 ^ f.least / 2 := by
  have hleast := two_zpow_pos (K := K) f.least
  rcases h.eq_or_lt with rfl | hpos
  · rw [Format.round_zero, sub_self, abs_zero, zero_mul, zero_add]
    positivity
  · have hunit : (2 : K) ^ f.unit x ≤ 2 * (x * 2 ^ (-(f.precision : ℤ))) + 2 ^ f.least := by
      have hpow := two_zpow_pos (K := K) (-(f.precision : ℤ))
      rcases max_choice (Int.log 2 x + 1 - (f.precision : ℤ)) f.least with hmax | hmax
      · rw [Format.unit, hmax]
        have hle := unit_le (f := f) hpos
        linarith
      · rw [Format.unit, hmax]
        have hprod := mul_pos hpos hpow
        linarith
    have herror := Format.round_error f x
    linarith

omit [IsStrictOrderedRing K] in
private theorem zpow_div_unit {u k : ℤ} (h : u ≤ k) :
    (2 : K) ^ k / 2 ^ u = ((2 ^ (k - u).toNat : ℤ) : K) := by
  rw [← zpow_sub₀ (by norm_num), ← Int.toNat_of_nonneg (show 0 ≤ k - u by omega), zpow_natCast,
    Int.toNat_natCast]
  push_cast
  rfl

/-- A power of two above a magnitude is above the rounded magnitude. -/
theorem Format.round_le_zpow {k : ℤ} (h : x ≤ 2 ^ k) (hunit : f.unit x ≤ k) : f.round x ≤ 2 ^ k := by
  have hpos := two_zpow_pos (K := K) (f.unit x)
  have hle : nearest (x / 2 ^ f.unit x) ≤ 2 ^ (k - f.unit x).toNat := by
    rw [← nearest_intCast (K := K) (2 ^ (k - f.unit x).toNat), ← zpow_div_unit hunit]
    exact nearest_mono (div_le_div_of_nonneg_right h hpos.le)
  have hcast : (nearest (x / 2 ^ f.unit x) : K) ≤ ((2 ^ (k - f.unit x).toNat : ℤ) : K) := by
    exact_mod_cast hle
  rw [← zpow_div_unit hunit, le_div_iff₀ hpos] at hcast
  exact hcast

theorem zpow_le_round {k : ℤ} (h : 2 ^ k ≤ x) (hunit : f.unit x ≤ k) : 2 ^ k ≤ f.round x := by
  have hpos := two_zpow_pos (K := K) (f.unit x)
  have hle : 2 ^ (k - f.unit x).toNat ≤ nearest (x / 2 ^ f.unit x) := by
    rw [← nearest_intCast (K := K) (2 ^ (k - f.unit x).toNat), ← zpow_div_unit hunit]
    exact nearest_mono (div_le_div_of_nonneg_right h hpos.le)
  have hcast : ((2 ^ (k - f.unit x).toNat : ℤ) : K) ≤ (nearest (x / 2 ^ f.unit x) : K) := by
    exact_mod_cast hle
  rw [← zpow_div_unit hunit, div_le_iff₀ hpos] at hcast
  exact hcast

/-- Rounding is monotone: within one unit as `nearest` is, and between two units a power
of two lies between the magnitudes. -/
theorem Format.round_mono (hx : 0 ≤ x) (h : x ≤ y) : f.round x ≤ f.round y := by
  rcases hx.eq_or_lt with rfl | hpos
  · rw [Format.round_zero]
    exact Format.round_nonneg h
  · have hlog : Int.log 2 x ≤ Int.log 2 y := Int.log_mono_right hpos h
    have hunit : f.unit x ≤ f.unit y := max_le_max_right _ (by omega)
    rcases hunit.eq_or_lt with heq | hlt
    · have hpow := two_zpow_pos (K := K) (f.unit y)
      rw [Format.round, Format.round, heq]
      refine mul_le_mul_of_nonneg_right ?_ hpow.le
      exact_mod_cast nearest_mono (div_le_div_of_nonneg_right h hpow.le)
    · have hp := f.pos
      have hux : Int.log 2 x + 1 - f.precision ≤ f.unit x := le_max_left _ _
      have hleast : f.least ≤ f.unit x := le_max_right _ _
      have huy : f.unit y = Int.log 2 y + 1 - f.precision := by
        rcases max_choice (Int.log 2 y + 1 - (f.precision : ℤ)) f.least with hmax | hmax
        · exact hmax
        · have hsmall : f.unit y = f.least := hmax
          omega
      have hbelow : x ≤ 2 ^ Int.log 2 y := by
        refine (lt_zpow_log x).le.trans (zpow_le_zpow_right₀ (by norm_num) ?_)
        omega
      exact (Format.round_le_zpow hbelow (by omega)).trans
        (zpow_le_round (zpow_log_le (hpos.trans_le h)) (by omega))

/-- Integers of the precision are kept. -/
theorem Format.round_natCast {n : ℕ} (h : n < 2 ^ f.precision) (hleast : f.least ≤ 0) :
    f.round (n : K) = n := by
  rcases Nat.eq_zero_or_pos n with rfl | hn
  · rw [Nat.cast_zero, Format.round_zero]
  · have hpos : (0 : K) < n := by exact_mod_cast hn
    have hunit : f.unit (n : K) ≤ 0 := by
      refine max_le ?_ hleast
      have hlog : Int.log 2 (n : K) < f.precision := by
        rw [← Int.lt_zpow_iff_log_lt (by norm_num) hpos]
        exact_mod_cast h
      omega
    have hint : (n : K) / 2 ^ f.unit (n : K) = ((n * 2 ^ (-f.unit (n : K)).toNat : ℤ) : K) := by
      have hzero := zpow_div_unit (K := K) hunit
      rw [zpow_zero, zero_sub] at hzero
      rw [div_eq_mul_one_div, hzero]
      push_cast
      rfl
    have hne : (2 : K) ^ f.unit (n : K) ≠ 0 := (two_zpow_pos _).ne'
    rw [Format.round, hint, nearest_intCast, ← hint, div_mul_cancel₀ _ hne]

theorem log_natCast (n : ℕ) : Int.log 2 (n : K) = Nat.log 2 n := Int.log_natCast 2 n

/-- A rounded integer is an integer. -/
theorem Format.round_natCast_integer (n : ℕ) (hleast : f.least ≤ 0) : ∃ m : ℕ, f.round (n : K) = m := by
  by_cases hsmall : n < 2 ^ f.precision
  · exact ⟨n, Format.round_natCast hsmall hleast⟩
  · have hlog : f.precision ≤ Nat.log 2 n := Nat.le_log_of_pow_le (by norm_num) (not_lt.mp hsmall)
    have hunit : f.unit (n : K) = ((Nat.log 2 n + 1 - f.precision : ℕ) : ℤ) := by
      rw [Format.unit, log_natCast, max_eq_left (by omega)]
      omega
    have hnonneg := nearest_nonneg (div_nonneg (Nat.cast_nonneg (α := K) n)
      (two_zpow_pos (f.unit (n : K))).le)
    refine ⟨(nearest ((n : K) / 2 ^ f.unit (n : K))).toNat *
      2 ^ (Nat.log 2 n + 1 - f.precision), ?_⟩
    have hcast : (((nearest ((n : K) / 2 ^ f.unit (n : K))).toNat : ℤ) : K) =
        nearest ((n : K) / 2 ^ f.unit (n : K)) := by
      rw [Int.toNat_of_nonneg hnonneg]
    rw [Format.round, ← hcast, hunit, zpow_natCast]
    push_cast
    rfl

/-- An integer is kept if and only if its binary digits behind the precision are zeros. -/
theorem Format.round_natCast_iff (n : ℕ) (hleast : f.least ≤ 0) :
    f.round (n : K) = n ↔ 2 ^ (Nat.log 2 n + 1 - f.precision) ∣ n := by
  by_cases hsmall : n < 2 ^ f.precision
  · have hp := f.pos
    have hlog : Nat.log 2 n < f.precision := Nat.log_lt_of_lt_pow' (by omega) hsmall
    rw [Nat.sub_eq_zero_of_le (by omega), pow_zero]
    exact iff_of_true (Format.round_natCast hsmall hleast) (one_dvd n)
  · have hlog : f.precision ≤ Nat.log 2 n := Nat.le_log_of_pow_le (by norm_num) (not_lt.mp hsmall)
    have hunit : f.unit (n : K) = ((Nat.log 2 n + 1 - f.precision : ℕ) : ℤ) := by
      rw [Format.unit, log_natCast, max_eq_left (by omega)]
      omega
    have hne : (2 : K) ^ (Nat.log 2 n + 1 - f.precision) ≠ 0 := by positivity
    rw [Format.round, hunit, zpow_natCast]
    constructor
    · intro heq
      rw [← Int.natCast_dvd_natCast]
      refine ⟨nearest ((n : K) / 2 ^ (Nat.log 2 n + 1 - f.precision)), ?_⟩
      have hint : ((n : ℤ) : K) = ((((2 ^ (Nat.log 2 n + 1 - f.precision) : ℕ) : ℤ) *
          nearest ((n : K) / 2 ^ (Nat.log 2 n + 1 - f.precision)) : ℤ) : K) := by
        push_cast
        rw [mul_comm]
        exact heq.symm
      exact_mod_cast hint
    · rintro ⟨m, hm⟩
      have hquot : (n : K) / 2 ^ (Nat.log 2 n + 1 - f.precision) = ((m : ℤ) : K) := by
        rw [div_eq_iff hne]
        have hcast : (n : K) = ((2 ^ (Nat.log 2 n + 1 - f.precision) * m : ℕ) : K) := by
          rw [← hm]
        rw [hcast]
        push_cast
        ring
      rw [hquot, nearest_intCast, ← hquot, div_mul_cancel₀ _ hne]

/-- `p` is `x` up to the given number of roundings. -/
structure Near (f : Format) (count : ℕ) (p x : K) : Prop where
  computed : 0 ≤ p
  exact : 0 ≤ x
  error : |p - x| ≤ x * ((1 + 2 ^ (-(f.precision : ℤ))) ^ count - 1) + 2 ^ f.least

theorem Near.round (f : Format) (h : 0 ≤ x) : Near f 1 (f.round x) x := by
  refine ⟨Format.round_nonneg h, h, (Format.round_error_le f h).trans ?_⟩
  have hleast := two_zpow_pos (K := K) f.least
  rw [pow_one, add_sub_cancel_left]
  linarith

/-- A rounded division by a number from four on. -/
theorem Near.div {count : ℕ} {p d : K} (h : Near f count p x) (hd : 4 ≤ d) :
    Near f (count + 1) (f.round (p / d)) (x / d) := by
  have hdpos : 0 < d := by linarith
  have hp := div_nonneg h.computed hdpos.le
  have hx := div_nonneg h.exact hdpos.le
  refine ⟨Format.round_nonneg hp, hx, ?_⟩
  have hrounded := Format.round_error_le f hp
  have herror : |p / d - x / d| ≤
      x / d * ((1 + 2 ^ (-(f.precision : ℤ))) ^ count - 1) + 2 ^ f.least / d := by
    rw [← sub_div, abs_div, abs_of_pos hdpos]
    calc |p - x| / d
        ≤ (x * ((1 + 2 ^ (-(f.precision : ℤ))) ^ count - 1) + 2 ^ f.least) / d :=
          div_le_div_of_nonneg_right h.error hdpos.le
      _ = _ := by ring
  have hleast := two_zpow_pos (K := K) f.least
  have hu := two_zpow_pos (K := K) (-(f.precision : ℤ))
  have hu1 : (2 : K) ^ (-(f.precision : ℤ)) ≤ 1 := zpow_le_one_of_nonpos₀ (by norm_num) (by omega)
  have hsmall : (2 : K) ^ f.least / d ≤ 2 ^ f.least / 4 :=
    div_le_div_of_nonneg_left hleast.le (by norm_num) hd
  have hnonneg := div_nonneg hleast.le hdpos.le
  have hprod := mul_le_of_le_one_right hnonneg hu1
  generalize (2 : K) ^ (-(f.precision : ℤ)) = u at *
  generalize (2 : K) ^ f.least / d = η at *
  have hbound : p / d ≤ x / d * (1 + u) ^ count + η := by
    have habs := (abs_le.mp herror).2
    linarith
  have hscaled := mul_le_mul_of_nonneg_right hbound hu.le
  calc |f.round (p / d) - x / d|
      ≤ |f.round (p / d) - p / d| + |p / d - x / d| := abs_sub_le _ _ _
    _ ≤ (x / d * (1 + u) ^ count + η) * u + 2 ^ f.least / 2 +
          (x / d * ((1 + u) ^ count - 1) + η) := by linarith
    _ = x / d * ((1 + u) ^ (count + 1) - 1) + (η * u + η + 2 ^ f.least / 2) := by ring
    _ ≤ x / d * ((1 + u) ^ (count + 1) - 1) + 2 ^ f.least := by linarith

end Formats

end TopicBroker.Rounding
