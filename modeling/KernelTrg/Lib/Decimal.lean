import Mathlib.Algebra.Order.Ring.Abs
import Mathlib.Algebra.Order.Ring.Int
import Mathlib.Tactic.Ring

/-!
# Decimal numbers of a fixed scale

Numbers with a fixed count of digits behind the point, computed with as `bc` does: a
quotient is cut off behind the digits of the current scale, and so is a product where it
has more digits than its factors and the scale. Rounding to an integer sends ties to the even
neighbour.
-/

namespace KernelTrg.Decimals

/-- `n / unit` as an integer, the nearest or of two that are as near the even one. -/
def nearestEven (n unit : Int) : Int :=
  let floor := n / unit
  let rest := n % unit
  if 2 * rest < unit ∨ 2 * rest = unit ∧ floor % 2 = 0 then floor else floor + 1

section Nearest

variable {n n' unit z : Int}

theorem nearestEven_of_exact (hunit : 0 < unit) (h : n = z * unit) : nearestEven n unit = z := by
  have hfloor : n / unit = z := by
    rw [h]
    exact Int.mul_ediv_cancel z hunit.ne'
  have hrest : n % unit = 0 := by
    rw [h]
    exact Int.mul_emod_left z _
  simp only [nearestEven, hfloor, hrest]
  exact if_pos (.inl (by omega))

theorem nearestEven_mono (hunit : 0 < unit) (h : n ≤ n') :
    nearestEven n unit ≤ nearestEven n' unit := by
  have hfloor : n / unit ≤ n' / unit := Int.ediv_le_ediv hunit h
  have hsplit := Int.mul_ediv_add_emod n unit
  have hsplit' := Int.mul_ediv_add_emod n' unit
  rcases hfloor.lt_or_eq with hlt | heq
  · -- another integer lies between the two numbers
    simp only [nearestEven]
    split <;> split <;> omega
  · have hrest : n % unit ≤ n' % unit := by
      rw [heq] at hsplit
      omega
    simp only [nearestEven, heq]
    split <;> split <;> omega

theorem le_nearestEven (hunit : 0 < unit) (h : z * unit ≤ n) : z ≤ nearestEven n unit :=
  (nearestEven_of_exact hunit rfl).ge.trans (nearestEven_mono hunit h)

theorem nearestEven_le (hunit : 0 < unit) (h : n ≤ z * unit) : nearestEven n unit ≤ z :=
  (nearestEven_mono hunit h).trans (nearestEven_of_exact hunit rfl).le

/-- The integer is half a unit away at most, and an odd one is nearer than any other. -/
theorem nearestEven_between (n : Int) (hunit : 0 < unit) :
    (2 * nearestEven n unit - 1) * unit ≤ 2 * n ∧ 2 * n ≤ (2 * nearestEven n unit + 1) * unit ∧
      (nearestEven n unit % 2 ≠ 0 →
        (2 * nearestEven n unit - 1) * unit ≠ 2 * n ∧
          2 * n ≠ (2 * nearestEven n unit + 1) * unit) := by
  have hsplit := Int.mul_ediv_add_emod n unit
  have hrest := Int.emod_nonneg n hunit.ne'
  have hrest' := Int.emod_lt_of_pos n hunit
  simp only [nearestEven]
  generalize n / unit = floor at hsplit
  split
  · have hlow : (2 * floor - 1) * unit = 2 * (unit * floor) - unit := by ring
    have hhigh : (2 * floor + 1) * unit = 2 * (unit * floor) + unit := by ring
    omega
  · have hlow : (2 * (floor + 1) - 1) * unit = 2 * (unit * floor) + unit := by ring
    have hhigh : (2 * (floor + 1) + 1) * unit = 2 * (unit * floor) + 3 * unit := by ring
    omega

theorem nearestEven_unique (hunit : 0 < unit) (hlow : (2 * z - 1) * unit ≤ 2 * n)
    (hhigh : 2 * n ≤ (2 * z + 1) * unit)
    (hodd : z % 2 ≠ 0 → (2 * z - 1) * unit ≠ 2 * n ∧ 2 * n ≠ (2 * z + 1) * unit) :
    nearestEven n unit = z := by
  obtain ⟨hlow', hhigh', hodd'⟩ := nearestEven_between n hunit
  generalize nearestEven n unit = y at hlow' hhigh' hodd'
  have hle : y ≤ z + 1 := by
    by_contra hlt
    have hmul : (2 * z + 1 + 2) * unit ≤ (2 * y - 1) * unit :=
      mul_le_mul_of_nonneg_right (by omega) hunit.le
    rw [add_mul] at hmul
    omega
  have hge : z ≤ y + 1 := by
    by_contra hlt
    have hmul : (2 * y + 1 + 2) * unit ≤ (2 * z - 1) * unit :=
      mul_le_mul_of_nonneg_right (by omega) hunit.le
    rw [add_mul] at hmul
    omega
  -- neighbours would be as near as each other, and one of them is odd
  by_contra hne
  rcases Int.lt_or_gt_of_ne hne with hlt | hlt
  · have hz : z = y + 1 := by omega
    have hmid : (2 * z - 1) * unit = (2 * y + 1) * unit := by rw [hz]; ring
    omega
  · have hy : y = z + 1 := by omega
    have hmid : (2 * y - 1) * unit = (2 * z + 1) * unit := by rw [hy]; ring
    omega

theorem nearestEven_of_between (hunit : 0 < unit) (hlow : (2 * z - 1) * unit < 2 * n)
    (hhigh : 2 * n < (2 * z + 1) * unit) : nearestEven n unit = z :=
  nearestEven_unique hunit hlow.le hhigh.le fun _ => ⟨hlow.ne, hhigh.ne⟩

theorem nearestEven_near (n : Int) (hunit : 0 < unit) :
    2 * |nearestEven n unit * unit - n| ≤ unit := by
  obtain ⟨hlow, hhigh, -⟩ := nearestEven_between n hunit
  generalize nearestEven n unit = z at hlow hhigh
  have hlow' : (2 * z - 1) * unit = 2 * (z * unit) - unit := by ring
  have hhigh' : (2 * z + 1) * unit = 2 * (z * unit) + unit := by ring
  rcases abs_cases (z * unit - n) with ⟨habs, -⟩ | ⟨habs, -⟩ <;> omega

theorem lt_nearestEven_iff (hunit : 0 < unit) (hz : z % 2 = 0) :
    z < nearestEven n unit ↔ (2 * z + 1) * unit < 2 * n := by
  obtain ⟨hlow, hhigh, hodd⟩ := nearestEven_between n hunit
  generalize nearestEven n unit = y at hlow hhigh hodd
  constructor
  · intro hlt
    rcases (show z + 1 = y ∨ z + 2 ≤ y by omega) with heq | hle
    · have hmid : (2 * y - 1) * unit = (2 * z + 1) * unit := by rw [← heq]; ring
      omega
    · have hmul : (2 * z + 1 + 2) * unit ≤ (2 * y - 1) * unit :=
        mul_le_mul_of_nonneg_right (by omega) hunit.le
      rw [add_mul] at hmul
      omega
  · intro hlt
    by_contra hle
    have hmul : (2 * y + 1) * unit ≤ (2 * z + 1) * unit :=
      mul_le_mul_of_nonneg_right (by omega) hunit.le
    omega

end Nearest

/-- `digits / 10 ^ scale`. -/
structure Decimal where
  digits : Int
  scale : Nat
deriving DecidableEq, Repr

namespace Decimal

def ofInt (z : Int) : Decimal := ⟨z, 0⟩

/-- The quotient at a scale, cut off towards zero. The divisor is not zero. -/
def div (scale : Nat) (a b : Decimal) : Decimal :=
  ⟨(a.digits * 10 ^ (b.scale + scale)).tdiv (b.digits * 10 ^ a.scale), scale⟩

/-- The product, with the digits of both factors as far as the scale or a factor has so many. -/
def mul (scale : Nat) (a b : Decimal) : Decimal :=
  let kept := min (a.scale + b.scale) (max scale (max a.scale b.scale))
  ⟨(a.digits * b.digits).tdiv (10 ^ (a.scale + b.scale - kept)), kept⟩

def lt (a b : Decimal) : Bool := a.digits * 10 ^ b.scale < b.digits * 10 ^ a.scale

/-- The nearest integer, of two the even one. -/
def roundEven (a : Decimal) : Int := nearestEven a.digits (10 ^ a.scale)

variable {a b : Decimal} {scale k : Nat} {d m n z : Int}

/-! ## Operations at one scale -/

theorem unit_pos (k : Nat) : (0 : Int) < 10 ^ k := Int.pow_pos (by decide)

theorem div_ofInt (scale : Nat) (m n : Int) :
    div scale (ofInt m) (ofInt n) = ⟨(m * 10 ^ scale).tdiv n, scale⟩ := by
  simp only [div, ofInt, Nat.zero_add, pow_zero, mul_one]

theorem div_zeros (scale j k : Nat) (d m : Int) :
    div scale ⟨d, j⟩ ⟨m * 10 ^ k, k⟩ = ⟨(d * 10 ^ scale).tdiv (m * 10 ^ j), scale⟩ := by
  have hleft : d * 10 ^ (k + scale) = 10 ^ k * (d * 10 ^ scale) := by ring
  have hright : m * 10 ^ k * 10 ^ j = 10 ^ k * (m * 10 ^ j) := by ring
  simp only [div, hleft, hright]
  rw [Int.mul_tdiv_mul_of_pos _ _ (unit_pos k)]

theorem mul_ofInt (scale : Nat) (d m : Int) :
    mul scale ⟨d, scale⟩ (ofInt m) = ⟨d * m, scale⟩ := by
  have hkept : min scale (max scale (max scale 0)) = scale := by omega
  simp only [mul, ofInt, Nat.add_zero, hkept, Nat.sub_self, pow_zero, Int.tdiv_one]

theorem lt_ofInt_iff : lt a (ofInt z) = true ↔ a.digits < z * 10 ^ a.scale := by
  simp [lt, ofInt]

theorem ofInt_lt_iff : lt (ofInt z) a = true ↔ z * 10 ^ a.scale < a.digits := by
  simp [lt, ofInt]

/-! ## Rounding -/

theorem le_roundEven (h : n * 10 ^ a.scale ≤ a.digits) : n ≤ a.roundEven :=
  le_nearestEven (unit_pos _) h

theorem roundEven_le (h : a.digits ≤ n * 10 ^ a.scale) : a.roundEven ≤ n :=
  nearestEven_le (unit_pos _) h

/-- Rounding keeps the order of numbers of one scale. -/
theorem roundEven_mono {d d' : Int} (h : d ≤ d') :
    (⟨d, scale⟩ : Decimal).roundEven ≤ (⟨d', scale⟩ : Decimal).roundEven :=
  nearestEven_mono (unit_pos scale) h

end Decimal

end KernelTrg.Decimals
