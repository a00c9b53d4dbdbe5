import KernelTrg.KsizeTest.Stops

/-!
# The arithmetic of the kmalloc test

The percentage of a turn is computed from the number of bytes asked for and the `ksize` of the
block, in `int`. A number above 0 that is granted is small enough for that; the number 0, and a
first step to above the largest `int`, are not.
-/

namespace KernelTrg.KsizeTest

def FitsInt (z : Int) : Prop := -2 ^ 31 ≤ z ∧ z < 2 ^ 31

/-- The percentage `(actual_alloc - num) * 100 / num` and `num += stepsz` can be computed in
`int`. -/
structure TurnExact (num stepsz : Int32) (actual : UInt64) : Prop where
  converted : (toInt32 actual).toInt = actual.toNat
  nonzero : num.toInt ≠ 0
  waste : FitsInt ((actual.toNat : Int) - num.toInt)
  hundredfold : FitsInt (((actual.toNat : Int) - num.toInt) * 100)
  percentage : FitsInt ((((actual.toNat : Int) - num.toInt) * 100).tdiv num.toInt)
  sum : FitsInt (num.toInt + stepsz.toInt)

/-- A block of `n` bytes has at least so many and less than twice as many and a constant, and one of
no bytes has none. -/
def Kernel.Rounds (kernel : Kernel) (const : Nat) : Prop :=
  ∀ i n actual, kernel.kmalloc i n = some actual →
    if n = 0 then actual = 0
    else n.toNat ≤ actual.toNat ∧ actual.toNat < 2 * n.toNat + const

/-- Every turn that gets its block can compute what it computes. -/
def TurnsExact (limit const : Nat) (stepsz : Int32) : Prop :=
  ∀ kernel : Kernel, kernel.Fails limit → kernel.Rounds const →
    ∀ i num log actual, kmtInit kernel stepsz i = .looping num log →
      kernel.kmalloc i (sizeT num) = some actual → TurnExact num stepsz actual

variable {kernel : Kernel} {stepsz num : Int32} {limit const i : Nat} {actual : UInt64}
  {log : List UInt8}

theorem generous_rounds (limit const : Nat) : (generous limit).Rounds const := by
  intro i n actual h
  have hsame : actual = n := by
    simp only [generous] at h
    split at h
    · cases h
      rfl
    · cases h
  rw [hsame]
  split
  · next hzero => exact hzero
  · next hne =>
    have hpos : n.toNat ≠ 0 := fun h => hne (UInt64.toNat_inj.mp h)
    omega

theorem turnExact_of_granted (hlimit : limit ≤ 4 * 2 ^ 20) (hconst : const ≤ 2 ^ 24)
    (hfails : kernel.Fails limit) (hrounds : kernel.Rounds const)
    (hsome : kernel.kmalloc i (sizeT num) = some actual) (hne : num.toInt ≠ 0)
    (hsum : FitsInt (num.toInt + stepsz.toInt)) : TurnExact num stepsz actual := by
  obtain ⟨hlow, hhigh⟩ := hfails.granted (by omega) hsome
  have hsize := toNat_sizeT num
  rw [if_pos hlow] at hsize
  have hbound := hrounds i _ actual hsome
  rw [if_neg (fun h => hne (by rw [← hsize, h]; rfl))] at hbound
  have hquotient : (((actual.toNat : Int) - num.toInt) * 100).tdiv num.toInt ≤
      ((actual.toNat : Int) - num.toInt) * 100 ∧
      0 ≤ (((actual.toNat : Int) - num.toInt) * 100).tdiv num.toInt := by
    have hnonneg : 0 ≤ ((actual.toNat : Int) - num.toInt) * 100 := by omega
    rw [Int.tdiv_eq_ediv_of_nonneg hnonneg]
    exact ⟨Int.ediv_le_self _ hnonneg, Int.ediv_nonneg hnonneg hlow⟩
  constructor
  case converted => exact Bytes.toInt_toInt32 (by omega)
  case nonzero => exact hne
  case waste => exact ⟨by omega, by omega⟩
  case hundredfold => exact ⟨by omega, by omega⟩
  case percentage => exact ⟨by omega, by omega⟩
  case sum => exact hsum

/-! ## Steps that keep the range -/

theorem turnsExact_of_invariant {P : Nat → Int32 → Prop} (hlimit : limit ≤ 4 * 2 ^ 20)
    (hconst : const ≤ 2 ^ 24) (hstart : P 0 100)
    (hstep : ∀ i num, P i num → 0 ≤ num.toInt → num.toInt ≤ limit →
      num.toInt ≠ 0 ∧ FitsInt (num.toInt + stepsz.toInt) ∧ P (i + 1) (num + stepsz)) :
    TurnsExact limit const stepsz := by
  intro kernel hfails hrounds i num log actual hloop hsome
  have hlimit' : limit < 2 ^ 64 - 2 ^ 31 := by omega
  obtain ⟨hlow, hhigh⟩ := hfails.granted hlimit' hsome
  have hrun := kmtInit_run hlimit' hfails hstart
    (fun i num hP hlow hhigh => ⟨(hstep i num hP hlow hhigh).1, (hstep i num hP hlow hhigh).2.2⟩) i
  rcases hrun with ⟨num', log', hloop', hP⟩ | ⟨log', hend⟩
  · rw [hloop] at hloop'
    cases hloop'
    obtain ⟨hne, hsum, -⟩ := hstep i num hP hlow hhigh
    exact turnExact_of_granted hlimit hconst hfails hrounds hsome hne hsum
  · rw [hloop] at hend
    cases hend

theorem turnsExact_of_lt (hlimit : limit < 100) (hconst : const ≤ 2 ^ 24) :
    TurnsExact limit const stepsz := by
  refine turnsExact_of_invariant (P := fun _ num => num = 100) (by omega) hconst rfl ?_
  intro i num h
  subst h
  intro _ hle
  rw [show (100 : Int32).toInt = 100 from rfl] at hle
  omega

/-- Each number but the first is at least the step, which what is granted bounds. -/
theorem turnsExact_of_pos (hlimit : limit ≤ 4 * 2 ^ 20) (hconst : const ≤ 2 ^ 24)
    (hpos : 0 < stepsz.toInt) (hfirst : stepsz.toInt ≤ 2147483547) :
    TurnsExact limit const stepsz := by
  refine turnsExact_of_invariant
    (P := fun _ num => num.toInt = 100 ∨ stepsz.toInt ≤ num.toInt) hlimit hconst (.inl rfl) ?_
  intro i num hP hlow hhigh
  have hsum : FitsInt (num.toInt + stepsz.toInt) := ⟨by omega, by omega⟩
  refine ⟨by omega, hsum, .inr ?_⟩
  rw [Bytes.toInt_add_of_fits hsum.1 hsum.2]
  omega

/-- The numbers stay the same, or fall by the step and jump over 0. -/
theorem turnsExact_of_not_dvd (hlimit : limit ≤ 4 * 2 ^ 20) (hconst : const ≤ 2 ^ 24)
    (hle : stepsz.toInt ≤ 0) (hdvd : ¬stepsz.toInt ∣ 100) : TurnsExact limit const stepsz := by
  refine turnsExact_of_invariant (P := fun i num => num.toInt = 100 + i * stepsz.toInt) hlimit
    hconst (by rw [Nat.cast_zero, zero_mul]; rfl) ?_
  intro i num hP hlow hhigh
  have hmin := stepsz.le_toInt
  have hsum : FitsInt (num.toInt + stepsz.toInt) := ⟨by omega, by omega⟩
  refine ⟨fun hzero => hdvd ⟨-i, by rw [mul_neg, mul_comm]; omega⟩, hsum, ?_⟩
  rw [Bytes.toInt_add_of_fits hsum.1 hsum.2, hP]
  push_cast
  ring

/-! ## Steps that leave it -/

theorem not_turnsExact_of_large (hlimit : 100 ≤ limit) (hlarge : 2147483547 < stepsz.toInt) :
    ¬TurnsExact limit const stepsz := by
  intro h
  obtain ⟨actual, hsome⟩ := generous_grants limit 100 (by decide)
    (by rw [show (100 : Int32).toInt = 100 from rfl]; omega) 0
  have hsum := (h (generous limit) (generous_fails limit) (generous_rounds limit const) 0 100 _
    actual rfl hsome).sum.2
  rw [show (100 : Int32).toInt = 100 from rfl] at hsum
  omega

/-- The numbers fall until one of them is 0. -/
theorem not_turnsExact_of_dvd (hlimit : 100 ≤ limit) (hneg : stepsz.toInt < 0)
    (hdvd : stepsz.toInt ∣ 100) : ¬TurnsExact limit const stepsz := by
  intro h
  have hrun : ∀ i : Nat, ∃ num log, kmtInit (generous limit) stepsz i = .looping num log ∧
      0 ≤ num.toInt ∧ num.toInt + i ≤ 100 ∧ stepsz.toInt ∣ num.toInt := by
    intro i
    induction i with
    | zero => exact ⟨100, _, rfl, by decide, by decide, hdvd⟩
    | succ i ih =>
        obtain ⟨num, log, hloop, hlow, hhigh, hmul⟩ := ih
        obtain ⟨actual, hsome⟩ := generous_grants limit num hlow (by omega) i
        have hexact := h (generous limit) (generous_fails limit) (generous_rounds limit const) i
          num log actual hloop hsome
        obtain ⟨hsum, hnext⟩ := toInt_add_of_dvd hneg hlow hexact.nonzero hmul
        rcases turn_cases (generous limit) stepsz num i log with
          ⟨hnone, -⟩ | ⟨-, hzero, -⟩ | ⟨-, -, log', hturn⟩
        · rw [hsome] at hnone
          cases hnone
        · exact absurd hzero hexact.nonzero
        · refine ⟨_, log', by rw [kmtInit, hloop, hturn], ?_⟩
          rw [hsum]
          push_cast
          exact ⟨hnext, by omega, dvd_add hmul (dvd_refl _)⟩
  obtain ⟨num, -, -, hlow, hhigh, -⟩ := hrun 101
  omega

/-- Every turn can compute its percentage and the next number exactly where the first allocation
fails, or the first step stays in range and the step is no negative divisor of 100. -/
theorem turnsExact_iff (hlimit : limit ≤ 4 * 2 ^ 20) (hconst : const ≤ 2 ^ 24) (stepsz : Int32) :
    TurnsExact limit const stepsz ↔
      limit < 100 ∨
        stepsz.toInt ≤ 2147483547 ∧ ¬(stepsz.toInt < 0 ∧ stepsz.toInt ∣ 100) := by
  constructor
  · intro h
    by_contra hnot
    rw [not_or, not_lt, not_and, not_not] at hnot
    by_cases hlarge : 2147483547 < stepsz.toInt
    · exact not_turnsExact_of_large hnot.1 hlarge h
    · obtain ⟨hneg, hdvd⟩ := hnot.2 (by omega)
      exact not_turnsExact_of_dvd hnot.1 hneg hdvd h
  · intro h
    rcases h with hlow | ⟨hfirst, hdvd⟩
    · exact turnsExact_of_lt hlow hconst
    · rcases lt_or_ge 0 stepsz.toInt with hpos | hle
      · exact turnsExact_of_pos hlimit hconst hpos hfirst
      · apply turnsExact_of_not_dvd hlimit hconst hle
        intro hmul
        have hne : stepsz.toInt ≠ 0 := by
          intro hzero
          rw [hzero] at hmul
          omega
        exact hdvd ⟨by omega, hmul⟩

/-- The default step, with blocks of up to 4 MiB. -/
theorem turnsExact_default : TurnsExact 4194304 4096 10000 :=
  (turnsExact_iff (by decide) (by decide) 10000).mpr (.inr (by decide))

/-- The step -50 leads to a division by 0, and the largest step to a sum out of range. -/
theorem not_turnsExact_fifty_largest :
    ¬TurnsExact 4194304 4096 (-50) ∧ ¬TurnsExact 4194304 4096 2147483647 :=
  ⟨not_turnsExact_of_dvd (by decide) (by decide) ⟨-2, by decide⟩,
    not_turnsExact_of_large (by decide) (by decide)⟩

end KernelTrg.KsizeTest
