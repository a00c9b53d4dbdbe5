import KernelTrg.Lib.Bytes
import KernelTrg.Lib.LongDouble

/-!
# Sizes in human units

`pr_sz_human` prints a size in KB and in each larger unit that it reaches. The value of a unit
is computed from that of the unit below, which is cut off behind two digits already, and only
where that is above 1024; for MB it is enough that the size is 1024. The columns are written by
`printf`, which reads the values by the decimal character of the locale.
-/

namespace KernelTrg.Iomem

open Bytes Decimals

/-! ## The function -/

/-- `scale=2; value/1024.0` -/
def bcDown (value : Decimal) : Decimal := Decimal.div 2 value ⟨10240, 1⟩

/-- The value of a unit from the value of the unit below; without one it stays 0. -/
def nextUnit (below : Decimal) : Decimal :=
  if (Decimal.ofInt 1024).lt below then bcDown below else .ofInt 0

def unitValues (szKB : Int64) : List Decimal :=
  let szMB := if 1024 ≤ szKB then bcDown (.ofInt szKB.toInt) else .ofInt 0
  let szGB := nextUnit szMB
  let szTB := nextUnit szGB
  let szPB := nextUnit szTB
  let szEB := nextUnit szPB
  let szZB := nextUnit szEB
  let szYB := nextUnit szZB
  let szBB := nextUnit szYB
  let szGoB := nextUnit szBB
  [szMB, szGB, szTB, szPB, szEB, szZB, szYB, szBB, szGoB]

/-- The values that are printed, each with the number of its unit. -/
def printedUnits (szKB : Int64) : List (Decimal × Nat) :=
  ((unitValues szKB).zipIdx 1).filter fun p => (Decimal.ofInt 0).lt p.1

/-- What `strtold` reads of a number that `bc` wrote: where the decimal character of the locale is
another one it stops at the point, and `printf` goes on with the number in front of it. -/
def numberRead (point : List UInt8) (value : Decimal) : Decimal :=
  if point = ascii "." then value
  else ⟨value.digits - value.digits % 10 ^ value.scale, value.scale⟩

/-- The hundredths that `%.2f` prints of a value that is not negative. -/
def printedHundredths (point : List UInt8) (value : Decimal) : Nat :=
  let parsed := (numberRead point value).longDouble
  (Decimal.roundEven ⟨parsed.digits * 10 ^ 2, parsed.scale⟩).toNat

/-- `":%9.2f"`: nine characters, one of them for the decimal character. -/
def unitColumn (point : List UInt8) (n : Nat) : List UInt8 :=
  58 :: (decimal (n / 100)).leftpad 6 32 ++ point ++ (decimal (n % 100)).leftpad 2 48

/-- What is printed for a label and a size, unless there is no size or `bc` is not installed. The
decimal character is that of `LC_NUMERIC`, which is not set here. -/
def prSzHuman (point : List UInt8) (bcFound : Bool) (label : List UInt8) (size : Option Int64) :
    List UInt8 :=
  match size with
  | none => []
  | some szKB =>
      if bcFound then
        label.rightpad 25 32 ++ 58 :: (signedDecimal szKB.toInt).leftpad 9 32 ++
          (printedUnits szKB).flatMap (fun p => unitColumn point (printedHundredths point p.1)) ++
          [10]
      else []

/-! ## The values of the units -/

/-- The exact value of unit `k`, cut off behind two digits. -/
def unitExact (szKB : Int64) (k : Nat) : Decimal := ⟨100 * szKB.toInt / 1024 ^ k, 2⟩

/-- The size is large enough for unit `k + 1` to be computed. -/
def Reaches (szKB : Int64) (k : Nat) : Prop :=
  if k = 0 then 1024 ≤ szKB.toInt else 102401 * 1024 ^ k ≤ 100 * szKB.toInt

instance (szKB : Int64) (k : Nat) : Decidable (Reaches szKB k) := by
  unfold Reaches
  infer_instance

def unitValue (szKB : Int64) : Nat → Decimal
  | 0 => if 1024 ≤ szKB then bcDown (.ofInt szKB.toInt) else .ofInt 0
  | k + 1 => nextUnit (unitValue szKB k)

variable {szKB : Int64} {k : Nat}

theorem kib_pos (k : Nat) : (0 : Int) < 1024 ^ k := Int.pow_pos (by decide)

theorem bcDown_unitExact (hsz : 0 ≤ szKB.toInt) (k : Nat) :
    bcDown (unitExact szKB k) = unitExact szKB (k + 1) := by
  have hnonneg : 0 ≤ 100 * szKB.toInt / 1024 ^ k * 10 ^ 2 :=
    mul_nonneg (Int.ediv_nonneg (by omega) (kib_pos k).le) (by decide)
  rw [bcDown, unitExact, show (⟨10240, 1⟩ : Decimal) = ⟨1024 * 10 ^ 1, 1⟩ from rfl,
    Decimal.div_zeros, Int.tdiv_eq_ediv_of_nonneg hnonneg,
    Int.mul_ediv_mul_of_pos_left _ _ (Decimal.unit_pos 2),
    Int.ediv_ediv_of_nonneg (kib_pos k).le, unitExact, pow_succ]

theorem bcDown_ofInt (hsz : 0 ≤ szKB.toInt) : bcDown (.ofInt szKB.toInt) = unitExact szKB 1 := by
  unfold bcDown
  rw [show (⟨10240, 1⟩ : Decimal) = ⟨1024 * 10 ^ 1, 1⟩ from rfl, Decimal.ofInt,
    Decimal.div_zeros, Int.tdiv_eq_ediv_of_nonneg (by omega), unitExact, mul_comm]
  rfl

theorem reaches_succ :
    Reaches szKB (k + 1) ↔ 102400 < (unitExact szKB (k + 1)).digits := by
  have hdiv : 102401 ≤ 100 * szKB.toInt / 1024 ^ (k + 1) ↔
      102401 * 1024 ^ (k + 1) ≤ 100 * szKB.toInt := Int.le_ediv_iff_mul_le (kib_pos (k + 1))
  unfold Reaches
  rw [if_neg (Nat.succ_ne_zero k), ← hdiv, unitExact]
  exact Iff.rfl

theorem Reaches.pred (h : Reaches szKB (k + 1)) : Reaches szKB k := by
  rw [Reaches, if_neg (Nat.succ_ne_zero k), pow_succ] at h
  have hpos := kib_pos k
  rw [Reaches]
  split
  · next hk =>
    rw [hk] at h
    omega
  · omega

theorem Reaches.le (h : Reaches szKB k) : 1024 ^ (k + 1) ≤ szKB.toInt := by
  have hpos := kib_pos k
  rw [Reaches] at h
  rw [pow_succ]
  split at h
  · next hk =>
    rw [hk, pow_zero]
    omega
  · omega

/-- There is a unit for every power of 1024 that a size can reach. -/
theorem lt_nine (h : 1024 ^ (k + 1) ≤ szKB.toInt) : k < 9 := by
  by_contra hge
  have hpow : (1024 : Int) ^ 10 ≤ 1024 ^ (k + 1) := pow_le_pow_right₀ (by decide) (by omega)
  have hmax := szKB.toInt_lt
  omega

/-- Each unit is the exact value, or stays 0 where it is not reached. -/
theorem unitValue_eq (hsz : 0 ≤ szKB.toInt) (k : Nat) :
    unitValue szKB k = if Reaches szKB k then unitExact szKB (k + 1) else .ofInt 0 := by
  induction k with
  | zero =>
      have hreaches : Reaches szKB 0 ↔ 1024 ≤ szKB := by
        unfold Reaches
        rw [if_pos rfl, Int64.le_iff_toInt_le]
        exact Iff.rfl
      unfold unitValue
      rw [bcDown_ofInt hsz]
      simp only [hreaches]
  | succ k ih =>
      unfold unitValue
      rw [ih, nextUnit]
      by_cases h : Reaches szKB k
      · rw [if_pos h, bcDown_unitExact hsz]
        simp only [Decimal.ofInt_lt_iff, reaches_succ]
        rfl
      · have hnext : ¬Reaches szKB (k + 1) := fun hnext => h hnext.pred
        rw [if_neg h, if_neg hnext]
        rfl

theorem hundred_le_digits (h : Reaches szKB k) : 100 ≤ (unitExact szKB (k + 1)).digits :=
  (Int.le_ediv_iff_mul_le (kib_pos (k + 1))).mpr (mul_le_mul_of_nonneg_left h.le (by decide))

/-! ## The columns -/

theorem printedUnits_eq (hsz : 0 ≤ szKB.toInt) :
    printedUnits szKB = ((List.range 9).filter fun k => Reaches szKB k).map
      fun k => (unitExact szKB (k + 1), k + 1) := by
  have hindexed : (unitValues szKB).zipIdx 1 =
      (List.range 9).map fun k => (unitValue szKB k, k + 1) := rfl
  have hprinted : ∀ k, (Decimal.ofInt 0).lt (unitValue szKB k) = decide (Reaches szKB k) := by
    intro k
    rw [unitValue_eq hsz, Bool.eq_iff_iff, Decimal.ofInt_lt_iff, decide_eq_true_eq]
    by_cases h : Reaches szKB k
    · have hdigits := hundred_le_digits h
      simp only [h, if_true, iff_true]
      omega
    · simp only [h, if_false, iff_false]
      decide
  unfold printedUnits
  rw [hindexed, List.filter_map]
  simp only [Function.comp_def, hprinted]
  apply List.map_congr_left
  intro k hk
  have hreaches : Reaches szKB k := by simpa using (List.mem_filter.mp hk).2
  rw [unitValue_eq hsz, if_pos hreaches]

theorem mem_printedUnits (hsz : 0 ≤ szKB.toInt) {value : Decimal} :
    (value, k) ∈ printedUnits szKB ↔
      ∃ i, k = i + 1 ∧ i < 9 ∧ Reaches szKB i ∧ value = unitExact szKB (i + 1) := by
  rw [printedUnits_eq hsz, List.mem_map]
  constructor
  · intro h
    rcases h with ⟨i, hi, heq⟩
    obtain ⟨hlt, hreaches⟩ := List.mem_filter.mp hi
    cases heq
    exact ⟨i, rfl, List.mem_range.mp hlt, by simpa using hreaches, rfl⟩
  · intro h
    rcases h with ⟨i, rfl, hlt, hreaches, rfl⟩
    exact ⟨i, List.mem_filter.mpr ⟨List.mem_range.mpr hlt, by simpa using hreaches⟩, rfl⟩

/-- Every value that is printed is the exact value of its unit, cut off behind two digits. -/
structure PrintsExact (point : List UInt8) (szKB : Int64) : Prop where
  values : ∀ p ∈ printedUnits szKB,
    (printedHundredths point p.1 : Int) = 100 * szKB.toInt / 1024 ^ p.2
  line : ∀ label, prSzHuman point true label (some szKB) =
    label.rightpad 25 32 ++ 58 :: (signedDecimal szKB.toInt).leftpad 9 32 ++
      (printedUnits szKB).flatMap (fun p =>
        unitColumn point (100 * szKB.toInt / 1024 ^ p.2).toNat) ++ [10]

theorem unitExact_small (szKB : Int64) (k : Nat) :
    (unitExact szKB (k + 1)).digits < 2 ^ 53 * 10 ^ 2 := by
  have hmax := szKB.toInt_lt
  have hpow : (1024 : Int) ≤ 1024 ^ (k + 1) := le_self_pow₀ (by decide) (Nat.succ_ne_zero k)
  apply (Int.ediv_lt_iff_lt_mul (kib_pos (k + 1))).mpr
  have hmul : (2 : Int) ^ 53 * 10 ^ 2 * 1024 ≤ 2 ^ 53 * 10 ^ 2 * 1024 ^ (k + 1) :=
    mul_le_mul_of_nonneg_left hpow (by decide)
  omega

theorem numberRead_digits (point : List UInt8) (d : Int) :
    numberRead point ⟨d, 2⟩ = ⟨if point = ascii "." then d else d - d % 100, 2⟩ := by
  unfold numberRead
  split <;> rfl

/-- The long double is near enough for two digits, so that what was read is what is printed. -/
theorem printedHundredths_eq (point : List UInt8) {d : Int} (hlow : 100 ≤ d)
    (hhigh : d < 2 ^ 53 * 10 ^ 2) :
    (printedHundredths point ⟨d, 2⟩ : Int) = if point = ascii "." then d else d - d % 100 := by
  have hroom : (10 : Int) ^ 2 * 2 ^ 53 < 2 ^ 64 := by decide
  unfold printedHundredths
  rw [numberRead_digits]
  generalize hread : (if point = ascii "." then d else d - d % 100) = read
  have hbounds : 100 ≤ read ∧ read ≤ d := by
    rw [← hread]
    split <;> omega
  have hdigits := Decimal.roundEven_longDouble_digits (a := ⟨read, 2⟩) (n := 53) hbounds.1
    (lt_of_le_of_lt hbounds.2 hhigh) hroom
  simp only at hdigits ⊢
  rw [hdigits, Int.toNat_of_nonneg (by omega)]

theorem printedHundredths_unitExact (point : List UInt8) (h : Reaches szKB k) :
    (printedHundredths point (unitExact szKB (k + 1)) : Int) = 100 * szKB.toInt / 1024 ^ (k + 1) ↔
      point = ascii "." ∨ 100 * szKB.toInt / 1024 ^ (k + 1) % 100 = 0 := by
  have hcolumn := printedHundredths_eq point (hundred_le_digits h) (unitExact_small szKB k)
  change (printedHundredths point (unitExact szKB (k + 1)) : Int) = _ at hcolumn
  rw [hcolumn]
  by_cases hpoint : point = ascii "."
  · exact iff_of_true (if_pos hpoint) (.inl hpoint)
  · simp only [hpoint, if_false, false_or]
    exact sub_eq_self

/-- The values that `bc` computes are those that it would compute from the size at once, and they
are printed so exactly where the locale has the point as its decimal character, or none of them has
anything behind it. -/
theorem printsExact_iff (hsz : 0 ≤ szKB.toInt) (point : List UInt8) :
    (∀ p ∈ printedUnits szKB, p.1 = ⟨100 * szKB.toInt / 1024 ^ p.2, 2⟩) ∧
    (PrintsExact point szKB ↔
      point = ascii "." ∨
        ∀ k, Reaches szKB k → 100 * szKB.toInt / 1024 ^ (k + 1) % 100 = 0) := by
  refine ⟨?_, ?_, ?_⟩
  · rintro ⟨value, n⟩ hp
    obtain ⟨k, rfl, -, -, rfl⟩ := (mem_printedUnits hsz).mp hp
    rfl
  · intro h
    rw [or_iff_not_imp_left]
    intro hpoint k hk
    have hmem : (unitExact szKB (k + 1), k + 1) ∈ printedUnits szKB :=
      (mem_printedUnits hsz).mpr ⟨k, rfl, lt_nine hk.le, hk, rfl⟩
    have hvalue := h.values _ hmem
    rw [printedHundredths_unitExact point hk] at hvalue
    exact hvalue.resolve_left hpoint
  · intro h
    have values : ∀ p ∈ printedUnits szKB,
        (printedHundredths point p.1 : Int) = 100 * szKB.toInt / 1024 ^ p.2 := by
      rintro ⟨value, n⟩ hp
      obtain ⟨k, rfl, -, hreaches, rfl⟩ := (mem_printedUnits hsz).mp hp
      exact (printedHundredths_unitExact point hreaches).mpr (h.imp_right fun hall => hall k hreaches)
    constructor
    case values => exact values
    case line =>
      intro label
      have hcolumns : ∀ p ∈ printedUnits szKB, unitColumn point (printedHundredths point p.1) =
          unitColumn point (100 * szKB.toInt / 1024 ^ p.2).toNat := by
        intro p hp
        rw [← values p hp, Int.toNat_natCast]
      rw [prSzHuman, List.flatMap_congr hcolumns]
      rfl

/-- Three gigabytes and a half: MB and GB are printed. -/
theorem printsExact_gb :
    printedUnits 3670016 = [(⟨358400, 2⟩, 1), (⟨350, 2⟩, 2)] ∧ PrintsExact (ascii ".") 3670016 :=
  ⟨by decide, (printsExact_iff (by decide) _).2.mpr (.inl rfl)⟩

/-- Three megabytes and a half, where the decimal character is a comma. -/
theorem printsExact_comma :
    prSzHuman (ascii ",") true (ascii "System RAM") (some 3584) =
        ascii "System RAM               :     3584:     3,00
" ∧
      ¬PrintsExact (ascii ",") 3584 := by
  refine ⟨by decide, fun h => ?_⟩
  have hvalue := h.values (⟨350, 2⟩, 1) (by decide)
  revert hvalue
  decide

/-! ## Which columns are due -/

/-- The column of a unit is there exactly where the size has one of that unit. The columns are
those of the first units, and the value of the last one has no unit above it. -/
structure ColumnsDue (szKB : Int64) : Prop where
  due : ∀ k, 1 ≤ k → ((∃ value, (value, k) ∈ printedUnits szKB) ↔ 1024 ^ k ≤ szKB.toInt)
  initial : (printedUnits szKB).map Prod.snd = List.range' 1 (printedUnits szKB).length
  largest : ∀ value k, (printedUnits szKB).getLast? = some (value, k) →
    value.lt (.ofInt 1) = false ∧ value.lt (.ofInt 1024) = true

/-- The numbers that meet a condition which each number hands down are an initial segment. -/
theorem filter_range_of_pred {P : Nat → Bool} (h : ∀ k, P (k + 1) = true → P k = true) (n : Nat) :
    ∃ m ≤ n, (List.range n).filter P = List.range m := by
  induction n with
  | zero => exact ⟨0, le_rfl, rfl⟩
  | succ n ih =>
      obtain ⟨m, hm, hfilter⟩ := ih
      rw [List.range_succ, List.filter_append, hfilter]
      by_cases hn : P n = true
      · have hall : (List.range n).filter P = List.range n := by
          rw [List.filter_eq_self]
          intro k hk
          have hlt := List.mem_range.mp hk
          exact Nat.decreasingInduction' (fun j _ _ hj => h j hj) hlt.le hn
        rw [hfilter] at hall
        refine ⟨n + 1, le_rfl, ?_⟩
        rw [hall, List.range_succ]
        simp [hn]
      · refine ⟨m, by omega, ?_⟩
        simp [hn]

theorem exists_printedUnits_eq (hsz : 0 ≤ szKB.toInt) :
    ∃ m ≤ 9, printedUnits szKB = (List.range m).map fun k => (unitExact szKB (k + 1), k + 1) := by
  obtain ⟨m, hm, hfilter⟩ := filter_range_of_pred (P := fun k => decide (Reaches szKB k))
    (fun k hk => decide_eq_true (of_decide_eq_true hk).pred) 9
  exact ⟨m, hm, by rw [printedUnits_eq hsz, hfilter]⟩

theorem unitExact_lt_iff (szKB : Int64) (k : Nat) (z : Int) :
    (unitExact szKB k).lt (.ofInt z) = true ↔ szKB.toInt < z * 1024 ^ k := by
  have hscaled : z * 10 ^ 2 * 1024 ^ k = 100 * (z * 1024 ^ k) := by ring
  rw [Decimal.lt_ofInt_iff, unitExact, Int.ediv_lt_iff_lt_mul (kib_pos k), hscaled]
  omega

theorem unitExact_between (hlow : 1024 ^ k ≤ szKB.toInt) (hhigh : szKB.toInt < 1024 ^ (k + 1)) :
    (unitExact szKB k).lt (.ofInt 1) = false ∧ (unitExact szKB k).lt (.ofInt 1024) = true := by
  rw [pow_succ, mul_comm] at hhigh
  rw [Bool.eq_false_iff, ne_eq, unitExact_lt_iff, unitExact_lt_iff, one_mul]
  exact ⟨not_lt.mpr hlow, hhigh⟩

theorem columnsDue_of_due (hsz : 0 ≤ szKB.toInt)
    (due : ∀ k, 1 ≤ k → ((∃ value, (value, k) ∈ printedUnits szKB) ↔ 1024 ^ k ≤ szKB.toInt)) :
    ColumnsDue szKB := by
  obtain ⟨m, hm, hcolumns⟩ := exists_printedUnits_eq hsz
  constructor
  case due => exact due
  case initial =>
    rw [hcolumns, List.length_map, List.length_range, List.map_map, List.range'_eq_map_range]
    apply List.map_congr_left
    intro k _
    simp [Nat.add_comm]
  case largest =>
    intro value k hlast
    cases m with
    | zero =>
        rw [hcolumns] at hlast
        cases hlast
    | succ m =>
        have hmem : ∀ v j, (v, j) ∈ printedUnits szKB → j ≤ m + 1 := by
          intro v j hj
          rw [hcolumns, List.mem_map] at hj
          obtain ⟨i, hi, heq⟩ := hj
          cases heq
          exact List.mem_range.mp hi
        rw [hcolumns, List.range_succ, List.map_append, List.map_singleton,
          List.getLast?_concat] at hlast
        cases hlast
        have hlow : 1024 ^ (m + 1) ≤ szKB.toInt := by
          refine (due (m + 1) (by omega)).mp ⟨unitExact szKB (m + 1), ?_⟩
          rw [hcolumns, List.mem_map]
          exact ⟨m, List.mem_range.mpr (Nat.lt_succ_self m), rfl⟩
        have hhigh : szKB.toInt < 1024 ^ (m + 2) := by
          by_contra hle
          obtain ⟨v, hv⟩ := (due (m + 2) (by omega)).mpr (by omega)
          have hbound := hmem v (m + 2) hv
          omega
        exact unitExact_between hlow hhigh

/-- The columns are those that are due exactly where the size is in none of the intervals between a
power of 1024 and that power and one hundredth of the power below. -/
theorem columnsDue_iff (hsz : 0 ≤ szKB.toInt) :
    ColumnsDue szKB ↔
      ∀ k, 2 ≤ k → szKB.toInt < 1024 ^ k ∨ 102401 * 1024 ^ (k - 1) ≤ 100 * szKB.toInt := by
  constructor
  · intro h k hk
    by_contra hnot
    rw [not_or, not_lt, not_le] at hnot
    obtain ⟨value, hmem⟩ := (h.due k (by omega)).mpr hnot.1
    obtain ⟨i, rfl, -, hreaches, -⟩ := (mem_printedUnits hsz).mp hmem
    rw [Reaches, if_neg (by omega)] at hreaches
    rw [Nat.add_sub_cancel] at hnot
    omega
  · intro h
    apply columnsDue_of_due hsz
    intro k hk
    constructor
    · intro h
      rcases h with ⟨value, hmem⟩
      obtain ⟨i, rfl, -, hreaches, -⟩ := (mem_printedUnits hsz).mp hmem
      exact hreaches.le
    · intro hle
      obtain ⟨i, rfl⟩ : ∃ i, k = i + 1 := ⟨k - 1, by omega⟩
      refine ⟨unitExact szKB (i + 1), (mem_printedUnits hsz).mpr ⟨i, rfl, lt_nine hle, ?_, rfl⟩⟩
      rw [Reaches]
      split
      · next hi =>
        rw [hi] at hle
        exact hle
      · have hdue := h (i + 1) (by omega)
        rw [Nat.add_sub_cancel] at hdue
        exact hdue.resolve_left (by omega)

/-- Two megabytes and a half. -/
theorem columnsDue_mb : ColumnsDue 2560 := by
  refine (columnsDue_iff (by decide)).mpr fun k hk => .inl ?_
  have hpow : (1024 : Int) ^ 2 ≤ 1024 ^ k := pow_le_pow_right₀ (by decide) hk
  exact lt_of_lt_of_le (by decide) hpow

/-- A gigabyte is printed as 1024.00 MB, without a column for GB. -/
theorem columnsDue_gigabyte :
    printedUnits 1048576 = [(⟨102400, 2⟩, 1)] ∧ ¬ColumnsDue 1048576 := by
  have hcolumns : printedUnits 1048576 = [(⟨102400, 2⟩, 1)] := by decide
  refine ⟨hcolumns, fun h => ?_⟩
  obtain ⟨value, hmem⟩ := (h.due 2 (by decide)).mpr (by decide)
  rw [hcolumns] at hmem
  simp at hmem

end KernelTrg.Iomem
