import KernelTrg.Iomem.Boxes

/-!
# The heights of the boxes

The height of a box is a truncated quotient times 5000, rounded and then limited. The limit
is applied by a comparison that refuses numbers of more than 64 bits, which a total below
5000 leads to.
-/

namespace KernelTrg.Iomem

open Decimals

def drawnSides (t : Terminal) (total sz : Int64) (label : List UInt8) : Nat :=
  (graphit t total [⟨label, sz⟩]).count .side

/-- For sizes that are not negative the heights lie between 1 and the limit, and grow with the
sizes. -/
def HeightsOrdered (t : Terminal) (total : Int64) : Prop :=
  ∀ (label₁ label₂ : List UInt8) (s₁ s₂ : Int64), 0 ≤ s₁.toInt → s₁.toInt ≤ s₂.toInt →
    1 ≤ drawnSides t total s₁ label₁ ∧ drawnSides t total s₁ label₁ ≤ limitScaleSz.toNat ∧
      drawnSides t total s₁ label₁ ≤ drawnSides t total s₂ label₂

variable {t : Terminal} {total sz s₁ s₂ : Int64} {label : List UInt8}

/-! ## The sides -/

theorem count_sides (count : Nat) (oversized : Bool) :
    (sides count oversized).count .side = count := by
  induction count with
  | zero => rfl
  | succ count ih =>
      have hone : (Item.side :: if oversized ∧ count = ((limitScaleSz - 1) / 2).toNat then
          [Item.ellipse] else []).count .side = 1 := by
        split <;> rfl
      unfold sides at ih ⊢
      rw [List.range_succ, List.flatMap_append, List.count_append, ih, List.flatMap_singleton, hone]

theorem drawnSides_eq (t : Terminal) (total sz : Int64) (label : List UInt8) :
    drawnSides t total sz label = sideCount total sz := by
  unfold drawnSides
  rw [graphit_cons]
  simp [drawBox, count_sides]

theorem sideCount_eq (hlow : 1 ≤ scaledSzInt total sz) (hhigh : scaledSzInt total sz < 2 ^ 63) :
    (sideCount total sz : Int) = min (scaledSzInt total sz) limitScaleSz := by
  have hlimit : limitScaleSz = 10 := rfl
  have hclamped : clamped total sz = true ↔ limitScaleSz < scaledSzInt total sz := by
    simp only [clamped, testGt, decide_eq_true_eq]
    omega
  unfold sideCount
  by_cases h : clamped total sz = true
  · rw [if_pos h, min_eq_right (hclamped.mp h).le]
    rfl
  · have hle : scaledSzInt total sz ≤ limitScaleSz := by
      by_contra hlt
      exact h (hclamped.mpr (by omega))
    rw [if_neg h, min_eq_left hle, Int64.toInt_ofInt_of_le (by omega) (by omega)]
    omega

/-- A height that needs the sign bit counts as negative, and no side is drawn. -/
theorem sideCount_eq_zero (hlow : 2 ^ 63 ≤ scaledSzInt total sz)
    (hhigh : scaledSzInt total sz < 2 ^ 64) : sideCount total sz = 0 := by
  have hclamped : ¬clamped total sz = true := by
    simp only [clamped, testGt, decide_eq_true_eq]
    omega
  have hwrapped : (scaledSzInt total sz).bmod Int64.size = scaledSzInt total sz - 2 ^ 64 := by
    have hbmod := Int.bmod_def (scaledSzInt total sz) Int64.size
    simp only [Int64.size] at hbmod ⊢
    split at hbmod <;> omega
  unfold sideCount
  rw [if_neg hclamped, Int64.toInt_ofInt, hwrapped]
  omega

/-! ## The scaled value -/

/-- The digits of the quotient, nine of them behind its point. -/
def quotient (total sz : Int64) : Int := sz.toInt * 10 ^ 9 / total.toInt

theorem scaledSzFp_eq (hsz : 0 ≤ sz.toInt) :
    scaledSzFp total sz = ⟨quotient total sz * 5000, 9⟩ := by
  have hdiv : (sz.toInt * 10 ^ 9).tdiv total.toInt = quotient total sz :=
    Int.tdiv_eq_ediv_of_nonneg (by omega)
  unfold scaledSzFp
  rw [Decimal.div_ofInt, hdiv, Decimal.mul_ofInt, Decimal.mul_ofInt, mul_assoc]
  rfl

theorem scaledSzInt_eq (hsz : 0 ≤ sz.toInt) :
    scaledSzInt total sz = if quotient total sz * 5000 < 10 ^ 9 then 1
      else (⟨quotient total sz * 5000, 9⟩ : Decimal).longDouble.roundEven := by
  unfold scaledSzInt
  rw [scaledSzFp_eq hsz]
  simp only [Decimal.lt_ofInt_iff, one_mul]

theorem one_le_scaledSzInt (total : Int64) (hsz : 0 ≤ sz.toInt) : 1 ≤ scaledSzInt total sz := by
  rw [scaledSzInt_eq hsz]
  split
  · exact le_rfl
  · next h =>
    have hone : (10 : Int) ^ 9 ≤ quotient total sz * 5000 := by omega
    have hpow := (Decimal.roundEven_longDouble_between (a := ⟨_, 9⟩) hone).1
    exact (Int.pow_pos (by decide)).trans_le hpow

/-- The truncated quotient, its product, the case below 1 and the rounding all keep the order. -/
theorem scaledSzInt_mono (htotal : 0 < total.toInt) (hs₁ : 0 ≤ s₁.toInt)
    (hle : s₁.toInt ≤ s₂.toInt) : scaledSzInt total s₁ ≤ scaledSzInt total s₂ := by
  have hquotient : quotient total s₁ ≤ quotient total s₂ :=
    Int.ediv_le_ediv htotal (by omega)
  have hone : 1 ≤ scaledSzInt total s₂ := one_le_scaledSzInt total (by omega)
  rw [scaledSzInt_eq hs₁]
  split
  · exact hone
  · next h =>
    rw [scaledSzInt_eq (by omega), if_neg (by omega)]
    exact Decimal.roundEven_longDouble_mono (by omega) (by omega)

theorem scaledSzInt_lt (htotal : 5000 ≤ total.toInt) (hsz : 0 ≤ sz.toInt) :
    scaledSzInt total sz < 2 ^ 63 := by
  have hquotient : quotient total sz * 5000 ≤ sz.toInt * 10 ^ 9 := by
    have hnonneg : 0 ≤ quotient total sz := Int.ediv_nonneg (by omega) (by omega)
    exact (mul_le_mul_of_nonneg_left htotal hnonneg).trans (Int.ediv_mul_le _ (by omega))
  have hmax := sz.toInt_lt
  rw [scaledSzInt_eq hsz]
  split
  · decide
  · have hexact : (⟨sz.toInt * 10 ^ 9, 9⟩ : Decimal).longDouble.roundEven = sz.toInt :=
      Decimal.roundEven_longDouble_of_exact (by omega) (by omega) 9
    have hmono : (⟨quotient total sz * 5000, 9⟩ : Decimal).longDouble.roundEven ≤
        (⟨sz.toInt * 10 ^ 9, 9⟩ : Decimal).longDouble.roundEven :=
      Decimal.roundEven_longDouble_mono (by omega) hquotient
    omega

theorem heightsOrdered_of_le (h : 5000 ≤ total.toInt) : HeightsOrdered t total := by
  intro label₁ label₂ s₁ s₂ hs₁ hle
  have hs₂ : 0 ≤ s₂.toInt := by omega
  have hlow := one_le_scaledSzInt total hs₁
  have hcount₁ := sideCount_eq hlow (scaledSzInt_lt h hs₁)
  have hcount₂ := sideCount_eq (one_le_scaledSzInt total hs₂) (scaledSzInt_lt h hs₂)
  have hmono := scaledSzInt_mono (lt_of_lt_of_le (by decide) h) hs₁ hle
  have hlimit : limitScaleSz = 10 := rfl
  rw [drawnSides_eq, drawnSides_eq]
  omega

/-! ## Small totals -/

/-- Where the total is below 5000 there is a size whose height needs the sign bit. -/
theorem exists_height_wraps (hpos : 0 < total.toInt) (h : total.toInt < 5000) :
    ∃ s : Int64, 0 ≤ s.toInt ∧ sideCount total s = 0 := by
  obtain ⟨s, hs⟩ : ∃ s : Int64, s.toInt = 2 ^ 63 * total.toInt / 5000 + 2 :=
    ⟨Int64.ofInt (2 ^ 63 * total.toInt / 5000 + 2),
      Int64.toInt_ofInt_of_le (by omega) (by omega)⟩
  -- the quotient is the one that makes the height 2^63, or a little more
  have hlow : 2 ^ 63 * 200000 ≤ quotient total s :=
    (Int.le_ediv_iff_mul_le hpos).mpr (by omega)
  have hhigh : quotient total s < 2 ^ 63 * 200000 + 2000000001 :=
    (Int.ediv_lt_iff_lt_mul hpos).mpr (by omega)
  have hone : (10 : Int) ^ 9 ≤ 2 ^ 63 * 10 ^ 9 := by decide
  have hbelow : (⟨2 ^ 63 * 10 ^ 9, 9⟩ : Decimal).longDouble.roundEven ≤ scaledSzInt total s := by
    rw [scaledSzInt_eq (by omega), if_neg (by omega)]
    exact Decimal.roundEven_longDouble_mono hone (by omega)
  have habove : scaledSzInt total s ≤
      (⟨(2 ^ 63 + 20000) * 10 ^ 9, 9⟩ : Decimal).longDouble.roundEven := by
    rw [scaledSzInt_eq (by omega), if_neg (by omega)]
    exact Decimal.roundEven_longDouble_mono (by omega) (by omega)
  rw [Decimal.roundEven_longDouble_of_exact (by decide) (by decide)] at hbelow habove
  exact ⟨s, by omega, sideCount_eq_zero hbelow (by omega)⟩

/-- The heights are between 1 and the limit and keep the order of the sizes exactly where the
total is at least 5000. -/
theorem heightsOrdered_iff (t : Terminal) (hpos : 0 < total.toInt) :
    HeightsOrdered t total ↔ 5000 ≤ total.toInt := by
  constructor
  · intro hordered
    by_contra hsmall
    obtain ⟨s, hs, hzero⟩ := exists_height_wraps hpos (by omega)
    have hone := (hordered [] [] s s hs le_rfl).1
    rw [drawnSides_eq, hzero] at hone
    omega
  · exact heightsOrdered_of_le

/-- A map of 4 GiB. -/
theorem heightsOrdered_four_gib : HeightsOrdered plainTerminal 4294967295 :=
  (heightsOrdered_iff plainTerminal (by decide)).mpr (by decide)

/-- With a total of 1 a size of 51 bits has a height of 64 bits, and a box without sides. -/
theorem heightsOrdered_fails :
    drawnSides plainTerminal 1 1844674407370957 [] = 0 ∧ ¬HeightsOrdered plainTerminal 1 := by
  have hzero : drawnSides plainTerminal 1 1844674407370957 [] = 0 := by
    rw [drawnSides_eq]
    decide
  refine ⟨hzero, fun hordered => ?_⟩
  have hone := (hordered [] [] 1844674407370957 1844674407370957 (by decide) le_rfl).1
  rw [hzero] at hone
  omega

end KernelTrg.Iomem
