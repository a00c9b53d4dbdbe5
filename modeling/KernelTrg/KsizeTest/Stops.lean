import KernelTrg.KsizeTest.Loop

/-!
# The end of the kmalloc test

The loop ends when an allocation fails. With a positive step the number grows until it is
too large or has turned negative, with a negative step it falls below 0, unless it meets 0
on the way; a step of 0 asks for the same forever.
-/

namespace KernelTrg.KsizeTest

/-- The module fails with `-ENOMEM` in the end, however the allocator answers within its limit. -/
def AlwaysFails (limit : Nat) (stepsz : Int32) : Prop :=
  ∀ kernel : Kernel, kernel.Fails limit →
    ∃ i log, kmtInit kernel stepsz i = .returned (-enomem) log

def generous (limit : Nat) : Kernel where
  comm := []
  pid := 0
  kmalloc := fun _ n => if n.toNat ≤ limit then some n else none

variable {kernel : Kernel} {stepsz num : Int32} {limit i : Nat} {log : List UInt8}

theorem generous_fails (limit : Nat) : (generous limit).Fails limit := by
  intro i n h
  exact if_neg (by omega)

theorem generous_grants (limit : Nat) (num : Int32) (hlow : 0 ≤ num.toInt)
    (hhigh : num.toInt ≤ limit) (i : Nat) :
    ∃ size, (generous limit).kmalloc i (sizeT num) = some size := by
  have hsize := toNat_sizeT num
  rw [if_pos hlow] at hsize
  exact ⟨_, if_pos (by omega)⟩

/-! ## Steps that end the loop -/

/-- A run in which the numbers that are not negative are bounded returns after as many turns. -/
theorem returns_of_bounded {P : Nat → Int32 → Prop} (bound : Nat) (hstart : P 0 100)
    (hlimit : limit < 2 ^ 64 - 2 ^ 31) (hfails : kernel.Fails limit)
    (hstep : ∀ i num, P i num → 0 ≤ num.toInt → num.toInt ≤ limit →
      num.toInt ≠ 0 ∧ P (i + 1) (num + stepsz))
    (hbound : ∀ num, P bound num → num.toInt < 0) :
    ∃ i log, kmtInit kernel stepsz i = .returned (-enomem) log := by
  rcases kmtInit_run hlimit hfails hstart hstep bound with ⟨num, log, hloop, hP⟩ | ⟨log, hend⟩
  · have hneg := hbound num hP
    rcases turn_cases kernel stepsz num bound log with
      ⟨-, log', hend⟩ | ⟨⟨size, hsome⟩, -⟩ | ⟨⟨size, hsome⟩, -⟩
    · exact ⟨bound + 1, log', by rw [kmtInit, hloop, hend]⟩
    · have hlow := (hfails.granted hlimit hsome).1
      omega
    · have hlow := (hfails.granted hlimit hsome).1
      omega
  · exact ⟨bound, log, hend⟩

/-- The number of each turn is larger than the one before, or negative. -/
theorem alwaysFails_of_pos (hlimit : limit < 2 ^ 64 - 2 ^ 31) (hpos : 0 < stepsz.toInt) :
    AlwaysFails limit stepsz := by
  intro kernel hfails
  refine returns_of_bounded (P := fun i num => 100 + i ≤ num.toInt ∨ num.toInt < 0)
    (2 ^ 31) (.inl (by decide)) hlimit hfails ?_ ?_
  · intro i num hP hlow _
    have hcases := toInt_add_cases num stepsz
    have hhigh := num.toInt_lt
    have hmax := stepsz.toInt_lt
    omega
  · intro num hP
    have hhigh := num.toInt_lt
    omega

/-- The number of each turn is the first one less a multiple of the step. -/
theorem alwaysFails_of_not_dvd (hlimit : limit < 2 ^ 64 - 2 ^ 31) (hneg : stepsz.toInt < 0)
    (hdvd : ¬stepsz.toInt ∣ 100) : AlwaysFails limit stepsz := by
  intro kernel hfails
  refine returns_of_bounded (P := fun i num => num.toInt = 100 + i * stepsz.toInt) 101
    (by rw [Nat.cast_zero, zero_mul]; rfl) hlimit hfails ?_ ?_
  · intro i num hP hlow _
    have hmin := stepsz.le_toInt
    have hnext : (i + 1 : Nat) * stepsz.toInt = i * stepsz.toInt + stepsz.toInt := by
      push_cast
      ring
    constructor
    · intro hzero
      exact hdvd ⟨-i, by rw [mul_neg, mul_comm]; omega⟩
    · have hmax := num.toInt_lt
      rw [hnext, Bytes.toInt_add_of_fits (by omega) (by omega)]
      omega
  · intro num hP
    rw [hP]
    push_cast
    omega

theorem alwaysFails_of_lt (hlimit : limit < 100) : AlwaysFails limit stepsz := by
  intro kernel hfails
  have hnone : kernel.kmalloc 0 (sizeT 100) = none := hfails 0 _ hlimit
  exact ⟨1, _, by rw [kmtInit, kmtInit, turn, hnone]⟩

/-! ## Steps that do not -/

theorem toInt_add_of_dvd (hneg : stepsz.toInt < 0) (hlow : 0 ≤ num.toInt) (hne : num.toInt ≠ 0)
    (hmul : stepsz.toInt ∣ num.toInt) :
    (num + stepsz).toInt = num.toInt + stepsz.toInt ∧ 0 ≤ num.toInt + stepsz.toInt := by
  have hle : -stepsz.toInt ≤ num.toInt :=
    Int.le_of_dvd (by omega) (Int.neg_dvd.mpr hmul)
  have hmax := num.toInt_lt
  exact ⟨Bytes.toInt_add_of_fits (by omega) (by omega), by omega⟩

theorem not_alwaysFails_of_granted {Q : Int32 → Prop} (hstart : Q 100)
    (hrange : ∀ num, Q num → 0 ≤ num.toInt ∧ num.toInt ≤ limit)
    (hstep : ∀ num, Q num → num.toInt ≠ 0 → Q (num + stepsz)) : ¬AlwaysFails limit stepsz := by
  intro h
  obtain ⟨i, log, hend⟩ := h (generous limit) (generous_fails limit)
  have hrun : (∃ num log, kmtInit (generous limit) stepsz i = .looping num log ∧ Q num) ∨
      ∃ log, kmtInit (generous limit) stepsz i = .trapped log := by
    refine kmtInit_invariant (I := fun _ st => (∃ num log, st = .looping num log ∧ Q num) ∨
      ∃ log, st = .trapped log) (.inl ⟨100, _, rfl, hstart⟩) ?_ i
    intro i st h
    rcases h with ⟨num, log, rfl, hQ⟩ | ⟨log, rfl⟩
    · rcases turn_cases (generous limit) stepsz num i log with
        ⟨hnone, -⟩ | ⟨-, -, htrap⟩ | ⟨-, hne, log', hnext⟩
      · obtain ⟨size, hsome⟩ := generous_grants limit num (hrange num hQ).1 (hrange num hQ).2 i
        rw [hsome] at hnone
        cases hnone
      · exact .inr ⟨log, htrap⟩
      · exact .inl ⟨_, log', hnext, hstep num hQ hne⟩
    · exact .inr ⟨log, rfl⟩
  rcases hrun with ⟨num, log', hloop, -⟩ | ⟨log', htrap⟩
  · rw [hloop] at hend
    cases hend
  · rw [htrap] at hend
    cases hend

theorem not_alwaysFails_of_zero (hlimit : 100 ≤ limit) (hzero : stepsz.toInt = 0) :
    ¬AlwaysFails limit stepsz := by
  have hstep : stepsz = 0 := Int32.toInt_inj.mp hzero
  refine not_alwaysFails_of_granted (Q := fun num => num = 100) rfl ?_ ?_
  · intro num h
    subst h
    exact ⟨by decide, by rw [show (100 : Int32).toInt = 100 from rfl]; omega⟩
  · intro num h
    subst h
    intro _
    rw [hstep]
    rfl

/-- With a negative step that divides 100 the number meets 0, and the percentage cannot be
computed. -/
theorem not_alwaysFails_of_dvd (hlimit : 100 ≤ limit) (hneg : stepsz.toInt < 0)
    (hdvd : stepsz.toInt ∣ 100) : ¬AlwaysFails limit stepsz := by
  refine not_alwaysFails_of_granted
    (Q := fun num => 0 ≤ num.toInt ∧ num.toInt ≤ 100 ∧ stepsz.toInt ∣ num.toInt)
    ⟨by decide, by decide, hdvd⟩ ?_ ?_
  · intro num h
    rcases h with ⟨hlow, hhigh, -⟩
    exact ⟨hlow, by omega⟩
  · intro num h
    rcases h with ⟨hlow, hhigh, hmul⟩
    intro hne
    obtain ⟨hsum, hnext⟩ := toInt_add_of_dvd hneg hlow hne hmul
    rw [hsum]
    exact ⟨hnext, by omega, dvd_add hmul (dvd_refl _)⟩

/-- The module always fails in the end exactly where the first allocation does, or the step is
positive, or it is negative and no divisor of 100. -/
theorem alwaysFails_iff (hlimit : limit < 2 ^ 64 - 2 ^ 31) (stepsz : Int32) :
    AlwaysFails limit stepsz ↔
      limit < 100 ∨ 0 < stepsz.toInt ∨ stepsz.toInt < 0 ∧ ¬stepsz.toInt ∣ 100 := by
  constructor
  · intro h
    by_contra hnot
    rw [not_or, not_or, not_lt, not_lt, not_and, not_not] at hnot
    obtain ⟨hgranted, hle, hdvd⟩ := hnot
    rcases hle.lt_or_eq with hneg | hzero
    · exact not_alwaysFails_of_dvd hgranted hneg (hdvd hneg) h
    · exact not_alwaysFails_of_zero hgranted hzero h
  · intro h
    rcases h with hlow | hpos | ⟨hneg, hdvd⟩
    · exact alwaysFails_of_lt hlow
    · exact alwaysFails_of_pos hlimit hpos
    · exact alwaysFails_of_not_dvd hlimit hneg hdvd

/-- The default step, with an allocator that grants up to 4 MiB. -/
theorem alwaysFails_default : AlwaysFails 4194304 10000 :=
  (alwaysFails_iff (by decide) 10000).mpr (.inr (.inl (by decide)))

/-- The steps 0 and -100, with the same allocator. -/
theorem not_alwaysFails_zero_hundred : ¬AlwaysFails 4194304 0 ∧ ¬AlwaysFails 4194304 (-100) :=
  ⟨not_alwaysFails_of_zero (by decide) rfl,
    not_alwaysFails_of_dvd (by decide) (by decide) ⟨-1, by decide⟩⟩

end KernelTrg.KsizeTest
