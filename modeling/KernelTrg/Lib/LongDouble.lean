import KernelTrg.Lib.Decimal
import Mathlib.Tactic.Linarith
import Mathlib.Tactic.LinearCombination
import Mathlib.Tactic.Zify

/-!
# Decimal numbers read as long doubles

`strtold` gives the number whose 64 leading bits are those of the decimal number, rounded to
the nearest. `printf` rounds that number once more, to the digits that it prints. Integers below 2^64
survive both, and so do the digits of a number with room for them behind its leading bits.
-/

namespace KernelTrg.Decimals.Decimal

/-- The exponent of the leading bit of a number from 1 on. -/
def magnitude (a : Decimal) : Nat := (a.digits / 10 ^ a.scale).toNat.log2

/-- How many of the leading bits stand behind the point. -/
def bitsBehind (a : Decimal) : Nat := 63 - a.magnitude

/-- How many bits in front of the point are not among the leading ones. -/
def bitsLost (a : Decimal) : Nat := a.magnitude - 63

def mantissa (a : Decimal) : Int :=
  nearestEven (a.digits * 2 ^ a.bitsBehind) (10 ^ a.scale * 2 ^ a.bitsLost)

/-- What `strtold` makes of a number from 1 on, as long as the exponent has room for it. -/
def longDouble (a : Decimal) : Decimal :=
  ⟨a.mantissa * 2 ^ a.bitsLost * 5 ^ a.bitsBehind, a.bitsBehind⟩

variable {a : Decimal} {scale n : Nat} {z d d' : Int}

theorem two_pow_pos (k : Nat) : (0 : Int) < 2 ^ k := Int.pow_pos (by decide)

theorem ulp_pos (a : Decimal) : (0 : Int) < 10 ^ a.scale * 2 ^ a.bitsLost :=
  mul_pos (unit_pos _) (two_pow_pos _)

/-! ## The leading bits -/

theorem magnitude_spec (hone : 10 ^ a.scale ≤ a.digits) :
    2 ^ a.magnitude * 10 ^ a.scale ≤ a.digits ∧
      a.digits < 2 ^ (a.magnitude + 1) * 10 ^ a.scale := by
  have hunit := unit_pos a.scale
  have hfloor : 1 ≤ a.digits / 10 ^ a.scale := (Int.le_ediv_iff_mul_le hunit).mpr (by omega)
  have hlow := Nat.log2_self_le (n := (a.digits / 10 ^ a.scale).toNat) (by omega)
  have hhigh := Nat.lt_log2_self (n := (a.digits / 10 ^ a.scale).toNat)
  zify at hlow hhigh
  rw [Int.toNat_of_nonneg (by omega)] at hlow hhigh
  exact ⟨(Int.le_ediv_iff_mul_le hunit).mp hlow, (Int.ediv_lt_iff_lt_mul hunit).mp hhigh⟩

theorem magnitude_lt (hone : 10 ^ a.scale ≤ a.digits) (h : a.digits < 2 ^ n * 10 ^ a.scale) :
    a.magnitude < n := by
  by_contra hle
  have hpow : (2 : Int) ^ n * 10 ^ a.scale ≤ 2 ^ a.magnitude * 10 ^ a.scale :=
    mul_le_mul_of_nonneg_right (pow_le_pow_right₀ (by decide) (by omega)) (unit_pos _).le
  have hlow := (magnitude_spec hone).1
  omega

theorem magnitude_mono (hone : 10 ^ scale ≤ d) (h : d ≤ d') :
    magnitude ⟨d, scale⟩ ≤ magnitude ⟨d', scale⟩ := by
  have hhigh := (magnitude_spec (a := ⟨d', scale⟩) (hone.trans h)).2
  exact Nat.lt_succ_iff.mp (magnitude_lt hone (lt_of_le_of_lt h hhigh))

/-- The bits in front of the point and behind it are 64 together, with those that are lost. -/
theorem bits_eq (a : Decimal) : a.magnitude + a.bitsBehind = 63 + a.bitsLost := by
  unfold bitsBehind bitsLost
  omega

theorem le_mantissa (hone : 10 ^ a.scale ≤ a.digits) : 2 ^ 63 ≤ a.mantissa := by
  apply le_nearestEven (ulp_pos a)
  calc (2 : Int) ^ 63 * (10 ^ a.scale * 2 ^ a.bitsLost)
      = 2 ^ (63 + a.bitsLost) * 10 ^ a.scale := by ring
    _ = 2 ^ a.magnitude * 10 ^ a.scale * 2 ^ a.bitsBehind := by rw [← bits_eq]; ring
    _ ≤ a.digits * 2 ^ a.bitsBehind :=
        mul_le_mul_of_nonneg_right (magnitude_spec hone).1 (two_pow_pos _).le

theorem mantissa_le (hone : 10 ^ a.scale ≤ a.digits) : a.mantissa ≤ 2 ^ 64 := by
  apply nearestEven_le (ulp_pos a)
  calc a.digits * 2 ^ a.bitsBehind
      ≤ 2 ^ (a.magnitude + 1) * 10 ^ a.scale * 2 ^ a.bitsBehind :=
        mul_le_mul_of_nonneg_right (magnitude_spec hone).2.le (two_pow_pos _).le
    _ = 2 * 2 ^ (a.magnitude + a.bitsBehind) * 10 ^ a.scale := by ring
    _ = 2 ^ 64 * (10 ^ a.scale * 2 ^ a.bitsLost) := by rw [bits_eq]; ring

/-! ## Order -/

theorem ten_pow_eq (k : Nat) : (10 : Int) ^ k = 2 ^ k * 5 ^ k := by rw [← mul_pow]; rfl

/-- An integer is compared with a long double by its leading bits. -/
theorem le_longDouble_iff :
    z * 10 ^ a.longDouble.scale ≤ a.longDouble.digits ↔
      z * 2 ^ a.bitsBehind ≤ a.mantissa * 2 ^ a.bitsLost := by
  have hfive : (0 : Int) < 5 ^ a.bitsBehind := Int.pow_pos (by decide)
  unfold longDouble
  rw [ten_pow_eq, ← mul_assoc, mul_le_mul_iff_left₀ hfive]

theorem longDouble_le_iff :
    a.longDouble.digits ≤ z * 10 ^ a.longDouble.scale ↔
      a.mantissa * 2 ^ a.bitsLost ≤ z * 2 ^ a.bitsBehind := by
  have hfive : (0 : Int) < 5 ^ a.bitsBehind := Int.pow_pos (by decide)
  unfold longDouble
  rw [ten_pow_eq, ← mul_assoc, mul_le_mul_iff_left₀ hfive]

theorem roundEven_longDouble_between (hone : 10 ^ a.scale ≤ a.digits) :
    2 ^ a.magnitude ≤ a.longDouble.roundEven ∧
      a.longDouble.roundEven ≤ 2 ^ (a.magnitude + 1) := by
  constructor
  · apply le_roundEven
    rw [le_longDouble_iff, ← pow_add, bits_eq, pow_add]
    exact mul_le_mul_of_nonneg_right (le_mantissa hone) (two_pow_pos _).le
  · apply roundEven_le
    rw [longDouble_le_iff, ← pow_add, add_right_comm, bits_eq, add_right_comm, pow_add]
    exact mul_le_mul_of_nonneg_right (mantissa_le hone) (two_pow_pos _).le

theorem roundEven_longDouble_mono (hone : 10 ^ scale ≤ d) (h : d ≤ d') :
    (⟨d, scale⟩ : Decimal).longDouble.roundEven ≤ (⟨d', scale⟩ : Decimal).longDouble.roundEven := by
  rcases (magnitude_mono hone h).lt_or_eq with hlt | heq
  · -- a power of two lies between the two numbers
    have hpow : (2 : Int) ^ (magnitude ⟨d, scale⟩ + 1) ≤ 2 ^ magnitude ⟨d', scale⟩ :=
      pow_le_pow_right₀ (by decide) hlt
    exact (roundEven_longDouble_between (a := ⟨d, scale⟩) hone).2.trans
      (hpow.trans (roundEven_longDouble_between (a := ⟨d', scale⟩) (hone.trans h)).1)
  · have hbehind : bitsBehind ⟨d, scale⟩ = bitsBehind ⟨d', scale⟩ := by
      unfold bitsBehind
      rw [heq]
    have hlost : bitsLost ⟨d, scale⟩ = bitsLost ⟨d', scale⟩ := by
      unfold bitsLost
      rw [heq]
    have hmantissa : mantissa ⟨d, scale⟩ ≤ mantissa ⟨d', scale⟩ := by
      unfold mantissa
      rw [hbehind, hlost]
      exact nearestEven_mono (mul_pos (unit_pos _) (two_pow_pos _))
        (mul_le_mul_of_nonneg_right h (two_pow_pos _).le)
    unfold longDouble
    rw [hbehind, hlost]
    apply roundEven_mono
    exact mul_le_mul_of_nonneg_right
      (mul_le_mul_of_nonneg_right hmantissa (two_pow_pos _).le) (Int.pow_pos (by decide)).le

/-! ## What survives -/

theorem bitsLost_eq_zero (hone : 10 ^ a.scale ≤ a.digits) (h : a.digits < 2 ^ 64 * 10 ^ a.scale) :
    a.bitsLost = 0 :=
  Nat.sub_eq_zero_of_le (Nat.lt_succ_iff.mp (magnitude_lt hone h))

theorem roundEven_longDouble_of_exact (hpos : 1 ≤ z) (hsmall : z < 2 ^ 64) (scale : Nat) :
    (⟨z * 10 ^ scale, scale⟩ : Decimal).longDouble.roundEven = z := by
  have hunit := unit_pos scale
  have hone : (10 : Int) ^ scale ≤ z * 10 ^ scale := le_mul_of_one_le_left hunit.le hpos
  have hlost : bitsLost ⟨z * 10 ^ scale, scale⟩ = 0 :=
    bitsLost_eq_zero hone (mul_lt_mul_of_pos_right hsmall hunit)
  have hmantissa : mantissa ⟨z * 10 ^ scale, scale⟩ = z * 2 ^ bitsBehind ⟨z * 10 ^ scale, scale⟩ := by
    apply nearestEven_of_exact (ulp_pos _)
    rw [hlost]
    ring
  apply le_antisymm
  · apply roundEven_le
    rw [longDouble_le_iff, hmantissa, hlost, pow_zero, mul_one]
  · apply le_roundEven
    rw [le_longDouble_iff, hmantissa, hlost, pow_zero, mul_one]

section Digits

variable (hone : 10 ^ a.scale ≤ a.digits) (hbelow : a.digits < 2 ^ n * 10 ^ a.scale)
  (hroom : 10 ^ a.scale * 2 ^ n < (2 : Int) ^ 64)

include hone hbelow hroom

theorem unit_lt_bitsBehind : a.bitsLost = 0 ∧ (10 : Int) ^ a.scale < 2 ^ a.bitsBehind := by
  have hmagnitude := magnitude_lt hone hbelow
  have hn : n ≤ 64 := by
    by_contra hlt
    have hpow : (2 : Int) ^ 64 ≤ 2 ^ n := pow_le_pow_right₀ (by decide) (by omega)
    have hle : (2 : Int) ^ n ≤ 10 ^ a.scale * 2 ^ n :=
      le_mul_of_one_le_left (two_pow_pos n).le (unit_pos a.scale)
    omega
  constructor
  · unfold bitsLost
    omega
  · have hsplit : (2 : Int) ^ 64 = 2 ^ (64 - n) * 2 ^ n := by
      rw [← pow_add]
      congr 1
      omega
    rw [hsplit] at hroom
    have hpow : (2 : Int) ^ (64 - n) ≤ 2 ^ a.bitsBehind := by
      apply pow_le_pow_right₀ (by decide)
      unfold bitsBehind
      omega
    exact lt_of_lt_of_le (lt_of_mul_lt_mul_right hroom (two_pow_pos n).le) hpow

theorem mantissa_between :
    (2 * a.digits - 1) * 2 ^ a.bitsBehind < 2 * a.mantissa * 10 ^ a.scale ∧
      2 * a.mantissa * 10 ^ a.scale < (2 * a.digits + 1) * 2 ^ a.bitsBehind := by
  obtain ⟨hlost, hunit⟩ := unit_lt_bitsBehind hone hbelow hroom
  obtain ⟨hlow, hhigh, -⟩ := nearestEven_between (a.digits * 2 ^ a.bitsBehind) (ulp_pos a)
  change (2 * a.mantissa - 1) * _ ≤ _ at hlow
  change _ ≤ (2 * a.mantissa + 1) * _ at hhigh
  rw [hlost, pow_zero, mul_one, ← mul_assoc] at hlow hhigh
  constructor <;> linarith

/-- The digits are printed as they were read. -/
theorem roundEven_longDouble_digits :
    roundEven ⟨a.longDouble.digits * 10 ^ a.scale, a.longDouble.scale⟩ = a.digits := by
  obtain ⟨hlow, hhigh⟩ := mantissa_between hone hbelow hroom
  obtain ⟨hlost, -⟩ := unit_lt_bitsBehind hone hbelow hroom
  have hfive : (0 : Int) < 5 ^ a.bitsBehind := Int.pow_pos (by decide)
  have hscaled : 2 * (a.mantissa * 2 ^ a.bitsLost * 5 ^ a.bitsBehind * 10 ^ a.scale) =
      2 * a.mantissa * 10 ^ a.scale * 5 ^ a.bitsBehind := by
    rw [hlost]
    ring
  apply nearestEven_of_between (unit_pos _)
  · simp only [longDouble]
    rw [hscaled, ten_pow_eq a.bitsBehind, ← mul_assoc]
    exact mul_lt_mul_of_pos_right hlow hfive
  · simp only [longDouble]
    rw [hscaled, ten_pow_eq a.bitsBehind, ← mul_assoc]
    exact mul_lt_mul_of_pos_right hhigh hfive

theorem bitsBehind_pos : ∃ k, a.bitsBehind = k + 1 := by
  obtain ⟨-, hunit⟩ := unit_lt_bitsBehind hone hbelow hroom
  apply Nat.exists_eq_succ_of_ne_zero
  intro hzero
  have hpos := unit_pos a.scale
  rw [hzero, pow_zero] at hunit
  omega

/-- The leading bits are to each half of an integer as the number is: a half is read as it is, and
nothing else gets there. -/
theorem mantissa_half (w : Int) :
    (w * 10 ^ a.scale < 2 * a.digits → w * 2 ^ a.bitsBehind < 2 * a.mantissa) ∧
    (w * 10 ^ a.scale = 2 * a.digits → w * 2 ^ a.bitsBehind = 2 * a.mantissa) ∧
    (2 * a.digits < w * 10 ^ a.scale → 2 * a.mantissa < w * 2 ^ a.bitsBehind) := by
  obtain ⟨hlow, hhigh⟩ := mantissa_between hone hbelow hroom
  obtain ⟨hlost, -⟩ := unit_lt_bitsBehind hone hbelow hroom
  obtain ⟨k, hk⟩ := bitsBehind_pos hone hbelow hroom
  have hunit := unit_pos a.scale
  have hbits := two_pow_pos a.bitsBehind
  refine ⟨fun hlt => ?_, fun heq => ?_, fun hgt => ?_⟩
  · apply lt_of_mul_lt_mul_right _ hunit.le
    calc w * 2 ^ a.bitsBehind * 10 ^ a.scale = w * 10 ^ a.scale * 2 ^ a.bitsBehind := by ring
      _ ≤ (2 * a.digits - 1) * 2 ^ a.bitsBehind := mul_le_mul_of_nonneg_right (by omega) hbits.le
      _ < 2 * a.mantissa * 10 ^ a.scale := hlow
  · have hexact : a.mantissa = w * 2 ^ k := by
      apply nearestEven_of_exact (ulp_pos a)
      rw [hlost, hk, pow_succ]
      linear_combination -2 ^ k * heq
    rw [hexact, hk]
    ring
  · apply lt_of_mul_lt_mul_right _ hunit.le
    calc 2 * a.mantissa * 10 ^ a.scale < (2 * a.digits + 1) * 2 ^ a.bitsBehind := hhigh
      _ ≤ w * 10 ^ a.scale * 2 ^ a.bitsBehind := mul_le_mul_of_nonneg_right (by omega) hbits.le
      _ = w * 2 ^ a.bitsBehind * 10 ^ a.scale := by ring

/-- Rounding to an integer after reading is rounding at once. -/
theorem roundEven_longDouble : a.longDouble.roundEven = a.roundEven := by
  obtain ⟨hlost, -⟩ := unit_lt_bitsBehind hone hbelow hroom
  have hfive : (0 : Int) < 5 ^ a.bitsBehind := Int.pow_pos (by decide)
  obtain ⟨hlow, hhigh, hodd⟩ := nearestEven_between a.digits (unit_pos a.scale)
  change (2 * a.roundEven - 1) * _ ≤ _ at hlow
  change _ ≤ (2 * a.roundEven + 1) * _ at hhigh
  obtain ⟨hlt, heq, -⟩ := mantissa_half hone hbelow hroom (2 * a.roundEven - 1)
  obtain ⟨-, heq', hgt⟩ := mantissa_half hone hbelow hroom (2 * a.roundEven + 1)
  have hdigits : 2 * a.longDouble.digits = 2 * a.mantissa * 5 ^ a.bitsBehind := by
    simp only [longDouble]
    rw [hlost]
    ring
  have hhalf : ∀ w : Int, w * 10 ^ a.bitsBehind = w * 2 ^ a.bitsBehind * 5 ^ a.bitsBehind := by
    intro w
    rw [ten_pow_eq, mul_assoc]
  apply nearestEven_unique (unit_pos _)
  · rw [hdigits]
    simp only [longDouble]
    rw [hhalf, mul_le_mul_iff_left₀ hfive]
    exact hlow.lt_or_eq.elim (fun h => (hlt h).le) fun h => (heq h).le
  · rw [hdigits]
    simp only [longDouble]
    rw [hhalf, mul_le_mul_iff_left₀ hfive]
    exact hhigh.lt_or_eq.elim (fun h => (hgt h).le) fun h => (heq' h.symm).ge
  · intro h
    rw [hdigits]
    simp only [longDouble]
    rw [hhalf, hhalf]
    constructor
    · exact (mul_lt_mul_of_pos_right (hlt (lt_of_le_of_ne hlow (hodd h).1)) hfive).ne
    · exact (mul_lt_mul_of_pos_right (hgt (lt_of_le_of_ne hhigh (hodd h).2)) hfive).ne

end Digits

end KernelTrg.Decimals.Decimal
