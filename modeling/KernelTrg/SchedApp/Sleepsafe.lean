import KernelTrg.Lib.Bytes

/-!
# A sleep that is taken up again

`sleepsafe` calls `nanosleep` with the time that remains as long as a signal interrupts it, and
returns 0 however the last call has ended. The signals are given by the nanoseconds after which
each of them comes.
-/

namespace KernelTrg.SchedApp

open Bytes

structure Timespec where
  tvSec : Int64
  tvNsec : Int64
deriving DecidableEq, Repr

def Timespec.total (t : Timespec) : Int := t.tvSec.toInt * 10 ^ 9 + t.tvNsec.toInt

/-- What `nanosleep` does not reject with `EINVAL`. -/
def Timespec.Valid (t : Timespec) : Prop :=
  0 ≤ t.tvSec.toInt ∧ 0 ≤ t.tvNsec.toInt ∧ t.tvNsec.toInt < 10 ^ 9

instance (t : Timespec) : Decidable t.Valid := by
  unfold Timespec.Valid
  infer_instance

def Timespec.ofNanos (n : Nat) : Timespec := ⟨Int64.ofNat (n / 10 ^ 9), Int64.ofNat (n % 10 ^ 9)⟩

/-- How `nanosleep` returns, and how long it has slept: with 0, with `EINTR` and the remaining
time, or at once with `EINVAL`. -/
inductive Woken where
  | elapsed (slept : Nat)
  | interrupted (slept : Nat) (rem : Timespec)
  | invalid
deriving DecidableEq, Repr

/-- A signal that comes after the time is over does not interrupt the call. -/
def nanosleep (req : Timespec) (signal : Option Nat) : Woken :=
  if req.Valid then
    match signal with
    | none => .elapsed req.total.toNat
    | some after =>
        if after ≤ req.total.toNat then
          .interrupted after (.ofNanos (req.total.toNat - after))
        else .elapsed req.total.toNat
  else .invalid

/-- What `sleepsafe` returns and prints, and the time slept in all its calls. -/
structure Slept where
  ret : Int32
  slept : Nat
  out : List UInt8
deriving DecidableEq, Repr

/-- `"nanosleep interrupted: rem time: %07lu.%07lu\n"` -/
def interruptedText (rem : Timespec) : List UInt8 :=
  let field (n : Int64) := (decimal n.toUInt64.toNat).leftpad 7 48
  ascii "nanosleep interrupted: rem time: " ++ field rem.tvSec ++ 46 :: field rem.tvNsec ++ [10]

def sleepLoop (verbose : Int32) : Timespec → List Nat → Slept
  | req, [] =>
      match nanosleep req none with
      | .elapsed slept | .interrupted slept _ => ⟨0, slept, []⟩
      | .invalid => ⟨0, 0, []⟩
  | req, after :: signals =>
      match nanosleep req (some after) with
      | .interrupted slept rem =>
          let rest := sleepLoop verbose rem signals
          ⟨rest.ret, slept + rest.slept,
            (if verbose ≠ 0 then interruptedText rem else []) ++ rest.out⟩
      | .elapsed slept => ⟨0, slept, []⟩
      | .invalid => ⟨0, 0, []⟩

def sleepsafe (sec nsec : Int64) (verbose : Int32) (signals : List Nat) : Slept :=
  sleepLoop verbose ⟨sec, nsec⟩ signals

/-- The function returns 0 only after all of the time that was asked for. -/
def InFull (sec nsec : Int64) (r : Slept) : Prop :=
  r.ret = 0 → sec.toInt * 10 ^ 9 + nsec.toInt ≤ r.slept

variable {req : Timespec} {n after : Nat} {signals : List Nat} {verbose : Int32}

theorem Timespec.Valid.total_nonneg (h : req.Valid) : 0 ≤ req.total := by
  obtain ⟨hsec, hnsec, -⟩ := h
  unfold Timespec.total
  omega

theorem Timespec.ofNanos_spec (h : n < 2 ^ 63 * 10 ^ 9) :
    (Timespec.ofNanos n).Valid ∧ (Timespec.ofNanos n).total = n := by
  have hsec : (Int64.ofNat (n / 10 ^ 9)).toInt = (n / 10 ^ 9 : Nat) :=
    Int64.toInt_ofNat_of_lt (by omega)
  have hnsec : (Int64.ofNat (n % 10 ^ 9)).toInt = (n % 10 ^ 9 : Nat) :=
    Int64.toInt_ofNat_of_lt (by omega)
  unfold Timespec.Valid Timespec.total Timespec.ofNanos
  simp only [hsec, hnsec]
  omega

theorem Timespec.Valid.total_lt (h : req.Valid) : req.total.toNat < 2 ^ 63 * 10 ^ 9 := by
  obtain ⟨-, -, hnsec⟩ := h
  have hmax := req.tvSec.toInt_lt
  unfold Timespec.total
  omega

/-- What is slept before each signal and what remains at the end are the time asked for. -/
theorem slept_of_valid (h : req.Valid) :
    ((sleepLoop verbose req signals).slept : Int) = req.total := by
  induction signals generalizing req with
  | nil =>
      have hnonneg := h.total_nonneg
      simp only [sleepLoop, nanosleep, if_pos h]
      omega
  | cons after signals ih =>
      have hnonneg := h.total_nonneg
      have hlt := h.total_lt
      simp only [sleepLoop, nanosleep, if_pos h]
      by_cases hafter : after ≤ req.total.toNat
      · obtain ⟨hvalid, htotal⟩ := Timespec.ofNanos_spec
          (n := req.total.toNat - after) (by omega)
        have hrest := ih hvalid
        simp only [if_pos hafter]
        omega
      · simp only [if_neg hafter]
        omega

theorem slept_of_invalid (h : ¬req.Valid) : (sleepLoop verbose req signals).slept = 0 := by
  cases signals with
  | nil => simp only [sleepLoop, nanosleep, if_neg h]
  | cons after signals => simp only [sleepLoop, nanosleep, if_neg h]

theorem ret_sleepLoop (verbose : Int32) (req : Timespec) (signals : List Nat) :
    (sleepLoop verbose req signals).ret = 0 := by
  induction signals generalizing req with
  | nil =>
      unfold sleepLoop
      split <;> rfl
  | cons after signals ih =>
      unfold sleepLoop
      split
      · exact ih _
      · rfl
      · rfl

/-- However often it is interrupted, the function sleeps in full exactly where the time is valid,
or is not above 0. -/
theorem sleepsafe_inFull_iff (sec nsec : Int64) (verbose : Int32) (signals : List Nat) :
    InFull sec nsec (sleepsafe sec nsec verbose signals) ↔
      (0 ≤ sec.toInt ∧ 0 ≤ nsec.toInt ∧ nsec.toInt < 10 ^ 9) ∨
        sec.toInt * 10 ^ 9 + nsec.toInt ≤ 0 := by
  have hret : (sleepsafe sec nsec verbose signals).ret = 0 := ret_sleepLoop ..
  unfold InFull
  simp only [hret, true_implies]
  by_cases h : (⟨sec, nsec⟩ : Timespec).Valid
  · have hslept : ((sleepsafe sec nsec verbose signals).slept : Int) =
        sec.toInt * 10 ^ 9 + nsec.toInt := slept_of_valid h
    exact iff_of_true hslept.ge (.inl h)
  · have hslept : (sleepsafe sec nsec verbose signals).slept = 0 := slept_of_invalid h
    rw [hslept]
    constructor
    · exact fun hle => .inr hle
    · exact fun hcond => hcond.resolve_left h

/-- A second given as nanoseconds is rejected, and not slept at all. -/
theorem sleepsafe_second_in_nanos :
    (sleepsafe 0 1000000000 0 []).ret = 0 ∧ ¬InFull 0 1000000000 (sleepsafe 0 1000000000 0 []) := by
  refine ⟨by decide, ?_⟩
  intro h
  exact absurd (h (by decide)) (by decide)

end KernelTrg.SchedApp
