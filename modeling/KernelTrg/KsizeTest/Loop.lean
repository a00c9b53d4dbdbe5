import KernelTrg.Lib.Bytes

/-!
# The kmalloc test

`kmt_init` asks for blocks of growing size until there is none, and logs for each block how
much larger it is than asked for. The step between the sizes is a module parameter, any
`int`. What the allocator answers in each turn is a parameter of the model.
-/

namespace KernelTrg.KsizeTest

open Bytes

/-- The current task, and for each turn and number of bytes the `ksize` of the block that `kmalloc`
returns, if it returns one. -/
structure Kernel where
  comm : List UInt8
  pid : Int32
  kmalloc : Nat → UInt64 → Option UInt64

abbrev enomem : Int32 := 12

def sizeT (n : Int32) : UInt64 := n.toInt64.toUInt64

def toInt32 (n : UInt64) : Int32 := n.toInt64.toInt32

def hdr : List UInt8 :=
  ascii "[1] kmalloc(n)   :[2]actual: wastage : %age\n" ++
    ascii "      bytes      :   bytes :  [2-1]  : waste\n"

/-- `"kmalloc(%7d) : %7d : %7d : %3d%%\n"` -/
def kmallocRow (num actualAlloc : Int32) : List UInt8 :=
  let field (width : Nat) (n : Int32) := (signedDecimal n.toInt).leftpad width 32
  ascii "kmalloc(" ++ field 7 num ++ ascii ") : " ++ field 7 actualAlloc ++ ascii " : " ++
    field 7 (actualAlloc - num) ++ ascii " : " ++
    field 3 ((actualAlloc - num) * 100 / num) ++ ascii "%\n"

/-- `kmt_init` at the start of a turn, after its return, and after a division by 0. -/
inductive State where
  | looping (num : Int32) (log : List UInt8)
  | returned (ret : Int32) (log : List UInt8)
  | trapped (log : List UInt8)
deriving DecidableEq, Repr

def turn (kernel : Kernel) (stepsz : Int32) (i : Nat) : State → State
  | .looping num log =>
      match kernel.kmalloc i (sizeT num) with
      | none => .returned (-enomem)
          (log ++ ascii "kmalloc fail, num=" ++ signedDecimal num.toInt ++ [10])
      | some size =>
          if num = 0 then .trapped log
          else .looping (num + stepsz) (log ++ kmallocRow num (toInt32 size))
  | st => st

/-- `kmt_init` after some turns. -/
def kmtInit (kernel : Kernel) (stepsz : Int32) : Nat → State
  | 0 => .looping 100 (ascii "context: " ++ kernel.comm ++ 58 :: signedDecimal kernel.pid.toInt ++
      10 :: hdr)
  | i + 1 => turn kernel stepsz i (kmtInit kernel stepsz i)

/-- `kmalloc` fails for every number of bytes above `limit`. -/
def Kernel.Fails (kernel : Kernel) (limit : Nat) : Prop :=
  ∀ i n, limit < n.toNat → kernel.kmalloc i n = none

variable {kernel : Kernel} {stepsz num : Int32} {limit i : Nat} {size : UInt64}
  {log : List UInt8}

/-! ## A turn -/

/-- The number of bytes asked for; a negative number asks for more than 2^64 - 2^31. -/
theorem toNat_sizeT (n : Int32) :
    ((sizeT n).toNat : Int) = if 0 ≤ n.toInt then n.toInt else n.toInt + 2 ^ 64 := by
  have hlow := n.le_toInt
  have hhigh := n.toInt_lt
  have hsize : ((sizeT n).toNat : Int) = n.toInt % 2 ^ 64 := toNat_toUInt64 n
  split <;> omega

theorem turn_cases (kernel : Kernel) (stepsz num : Int32) (i : Nat) (log : List UInt8) :
    kernel.kmalloc i (sizeT num) = none ∧
      (∃ log', turn kernel stepsz i (.looping num log) = .returned (-enomem) log') ∨
    (∃ size, kernel.kmalloc i (sizeT num) = some size) ∧ num.toInt = 0 ∧
      turn kernel stepsz i (.looping num log) = .trapped log ∨
    (∃ size, kernel.kmalloc i (sizeT num) = some size) ∧ num.toInt ≠ 0 ∧
      ∃ log', turn kernel stepsz i (.looping num log) = .looping (num + stepsz) log' := by
  have hzero : num = 0 ↔ num.toInt = 0 := by
    rw [← Int32.toInt_inj]
    exact Iff.rfl
  cases hkmalloc : kernel.kmalloc i (sizeT num) with
  | none => exact .inl ⟨rfl, _, by rw [turn, hkmalloc]⟩
  | some size =>
      by_cases h : num = 0
      · exact .inr (.inl ⟨⟨size, rfl⟩, hzero.mp h, by rw [turn, hkmalloc]; exact if_pos h⟩)
      · exact .inr (.inr ⟨⟨size, rfl⟩, fun h' => h (hzero.mpr h'), _,
          by rw [turn, hkmalloc]; exact if_neg h⟩)

theorem Kernel.Fails.granted (h : kernel.Fails limit) (hlimit : limit < 2 ^ 64 - 2 ^ 31)
    (hsome : kernel.kmalloc i (sizeT num) = some size) : 0 ≤ num.toInt ∧ num.toInt ≤ limit := by
  have hlow := num.le_toInt
  have hsize := toNat_sizeT num
  have hle : (sizeT num).toNat ≤ limit := by
    by_contra hlt
    rw [h i _ (by omega)] at hsome
    cases hsome
  split at hsize <;> omega

/-- The next number, which is exact within an `int`, and else off by 2^32. -/
theorem toInt_add_cases (num stepsz : Int32) :
    (num + stepsz).toInt = num.toInt + stepsz.toInt ∨
    2 ^ 31 ≤ num.toInt + stepsz.toInt ∧
      (num + stepsz).toInt = num.toInt + stepsz.toInt - 2 ^ 32 ∨
    num.toInt + stepsz.toInt < -2 ^ 31 ∧
      (num + stepsz).toInt = num.toInt + stepsz.toInt + 2 ^ 32 := by
  have hlow := num.le_toInt
  have hhigh := num.toInt_lt
  have hlow' := stepsz.le_toInt
  have hhigh' := stepsz.toInt_lt
  have hbmod := Int.bmod_def (num.toInt + stepsz.toInt) (2 ^ 32)
  rw [Int32.toInt_add, hbmod]
  split <;> omega

/-! ## Runs -/

theorem kmtInit_invariant {I : Nat → State → Prop} (hstart : I 0 (kmtInit kernel stepsz 0))
    (hturn : ∀ i st, I i st → I (i + 1) (turn kernel stepsz i st)) (i : Nat) :
    I i (kmtInit kernel stepsz i) := by
  induction i with
  | zero => exact hstart
  | succ i ih => exact hturn i _ ih

/-- A run whose granted numbers are not 0 is in the loop or has failed; `P` says of the number of a
turn what the turn before hands on. -/
theorem kmtInit_run {P : Nat → Int32 → Prop} (hlimit : limit < 2 ^ 64 - 2 ^ 31)
    (hfails : kernel.Fails limit) (hstart : P 0 100)
    (hstep : ∀ i num, P i num → 0 ≤ num.toInt → num.toInt ≤ limit →
      num.toInt ≠ 0 ∧ P (i + 1) (num + stepsz)) (i : Nat) :
    (∃ num log, kmtInit kernel stepsz i = .looping num log ∧ P i num) ∨
      ∃ log, kmtInit kernel stepsz i = .returned (-enomem) log := by
  refine kmtInit_invariant (I := fun i st => (∃ num log, st = .looping num log ∧ P i num) ∨
    ∃ log, st = .returned (-enomem) log) (.inl ⟨100, _, rfl, hstart⟩) ?_ i
  intro i st h
  rcases h with ⟨num, log, rfl, hP⟩ | ⟨log, rfl⟩
  · rcases turn_cases kernel stepsz num i log with
      ⟨-, hend⟩ | ⟨⟨size, hsome⟩, hzero, -⟩ | ⟨⟨size, hsome⟩, -, log', hnext⟩
    · exact .inr hend
    · obtain ⟨hlow, hhigh⟩ := hfails.granted hlimit hsome
      exact absurd hzero (hstep i num hP hlow hhigh).1
    · obtain ⟨hlow, hhigh⟩ := hfails.granted hlimit hsome
      exact .inl ⟨_, log', hnext, (hstep i num hP hlow hhigh).2⟩
  · exact .inr ⟨log, rfl⟩

end KernelTrg.KsizeTest
