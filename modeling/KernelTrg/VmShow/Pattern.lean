import Mathlib.Algebra.Order.Group.Nat
import Mathlib.Data.Nat.ModEq

/-!
# Memory filled with a pattern

`mempattern` copies one word of the pattern to each whole word of a length. The stride of its
pointer, the divisor of the length and the size of a copy are three expressions. A memory is a
byte for every address.
-/

namespace KernelTrg.VmShow

inductive Bits where
  | bits32
  | bits64
deriving DecidableEq, Repr

abbrev Memory := Nat → UInt8

/-- `sizeof(u32)` or `sizeof(u64)`, the stride of `pattptr`. -/
def Bits.sizeofWord : Bits → Nat
  | .bits32 => 4
  | .bits64 => 8

/-- The size of a pointer, whatever it points to. -/
def Bits.sizeofPointer : Bits → Nat
  | .bits32 => 4
  | .bits64 => 8

/-- An `int` as a `size_t`, which has the size of a pointer. -/
def Bits.sizeT (bits : Bits) (n : Int32) : Nat :=
  (n.toInt % 2 ^ (8 * bits.sizeofPointer)).toNat

def memcpy (memory : Memory) (dest src n : Nat) : Memory := fun a =>
  if dest ≤ a ∧ a < dest + n then memory (src + (a - dest)) else memory a

def fillWords (bits : Bits) (pattern : Nat) : Nat → Nat → Memory → Memory
  | 0, _, memory => memory
  | turns + 1, pattptr, memory =>
      fillWords bits pattern turns (pattptr + bits.sizeofWord)
        (memcpy memory pattptr pattern bits.sizeofPointer)

def mempattern (bits : Bits) (memory : Memory) (pdest pattern : Nat) (len : Int32) : Memory :=
  fillWords bits pattern (bits.sizeT len / bits.sizeofPointer) pdest memory

/-- No `memcpy` of the loop has operands that overlap, for which C does not define it. -/
def CopiesDefined (bits : Bits) (pdest pattern : Nat) (len : Int32) : Prop :=
  ∀ i < bits.sizeT len / bits.sizeofPointer,
    pattern + bits.sizeofPointer ≤ pdest + i * bits.sizeofWord ∨
      pdest + i * bits.sizeofWord + bits.sizeofPointer ≤ pattern

variable {bits : Bits} {memory : Memory} {pdest pattern pattptr turns dest src n a k : Nat}
  {len : Int32}

theorem Bits.sizeofWord_eq (bits : Bits) : bits.sizeofWord = bits.sizeofPointer := by
  cases bits <;> rfl

theorem Bits.sizeofPointer_pos (bits : Bits) : 0 < bits.sizeofPointer := by
  cases bits <;> decide

theorem Bits.sizeT_of_nonneg (bits : Bits) (h : 0 ≤ len.toInt) :
    bits.sizeT len = len.toInt.toNat := by
  have hlt := len.toInt_lt
  unfold Bits.sizeT
  rw [Int.emod_eq_of_lt h]
  cases bits with
  | bits32 => exact hlt.trans (by decide)
  | bits64 => exact hlt.trans (by decide)

/-! ## Copies -/

theorem memcpy_inside (h : k < n) : memcpy memory dest src n (dest + k) = memory (src + k) := by
  unfold memcpy
  rw [if_pos (by omega), Nat.add_sub_cancel_left]

theorem memcpy_outside (h : a < dest ∨ dest + n ≤ a) : memcpy memory dest src n a = memory a := by
  unfold memcpy
  rw [if_neg (by omega)]

/-! ## The loop -/

/-- The words behind the pointer are filled, everything else is kept. The pattern is not in what is
filled, so that every turn copies the same bytes. -/
theorem fillWords_spec (memory : Memory)
    (h : pattern + bits.sizeofPointer ≤ pattptr ∨
      pattptr + turns * bits.sizeofPointer ≤ pattern) :
    (∀ k < turns * bits.sizeofPointer,
      fillWords bits pattern turns pattptr memory (pattptr + k) =
        memory (pattern + k % bits.sizeofPointer)) ∧
    ∀ a, a < pattptr ∨ pattptr + turns * bits.sizeofPointer ≤ a →
      fillWords bits pattern turns pattptr memory a = memory a := by
  have hpos := bits.sizeofPointer_pos
  induction turns generalizing pattptr memory with
  | zero =>
      constructor
      · intro k hk
        rw [Nat.zero_mul] at hk
        omega
      · intro a _
        rfl
  | succ turns ih =>
      have hsucc : (turns + 1) * bits.sizeofPointer =
          turns * bits.sizeofPointer + bits.sizeofPointer := Nat.succ_mul _ _
      rw [hsucc] at h ⊢
      unfold fillWords
      rw [bits.sizeofWord_eq]
      have hapart : pattern + bits.sizeofPointer ≤ pattptr + bits.sizeofPointer ∨
          pattptr + bits.sizeofPointer + turns * bits.sizeofPointer ≤ pattern := by omega
      obtain ⟨hfill, hkeep⟩ :=
        ih (memcpy memory pattptr pattern bits.sizeofPointer) hapart
      constructor
      · intro k hk
        by_cases hfirst : k < bits.sizeofPointer
        · rw [hkeep _ (by omega), memcpy_inside hfirst, Nat.mod_eq_of_lt hfirst]
        · have hk' : pattptr + k =
              pattptr + bits.sizeofPointer + (k - bits.sizeofPointer) := by omega
          have hlt := Nat.mod_lt (k - bits.sizeofPointer) hpos
          rw [hk', hfill _ (by omega), memcpy_outside (by omega),
            ← Nat.mod_eq_sub_mod (by omega)]
      · intro a ha
        rw [hkeep a (by omega), memcpy_outside (by omega)]

/-- Where the copies are defined, the pattern is apart from all that is filled: one word of that
would else overlap it. -/
theorem CopiesDefined.apart (h : CopiesDefined bits pdest pattern len) :
    bits.sizeT len / bits.sizeofPointer = 0 ∨ pattern + bits.sizeofPointer ≤ pdest ∨
      pdest + bits.sizeT len / bits.sizeofPointer * bits.sizeofPointer ≤ pattern := by
  unfold CopiesDefined at h
  rw [bits.sizeofWord_eq] at h
  generalize bits.sizeT len / bits.sizeofPointer = turns at h ⊢
  by_cases hlow : pattern < pdest
  · rcases Nat.eq_zero_or_pos turns with hzero | hpos
    · exact .inl hzero
    · have hfirst := h 0 hpos
      omega
  · by_cases hhigh : pdest + turns * bits.sizeofPointer ≤ pattern
    · exact .inr (.inr hhigh)
    · -- the word that holds the first byte of the pattern
      have hword := Nat.div_add_mod' (pattern - pdest) bits.sizeofPointer
      have hmod := Nat.mod_lt (pattern - pdest) bits.sizeofPointer_pos
      have hturn : (pattern - pdest) / bits.sizeofPointer < turns := by
        rw [Nat.div_lt_iff_lt_mul bits.sizeofPointer_pos]
        omega
      have hoverlap := h _ hturn
      omega

/-- The part of the length that whole words fill has the pattern, and every other byte of the
memory is what it was. -/
theorem mempattern_fills (bits : Bits) (memory : Memory) (pdest pattern : Nat) (len : Int32)
    (hlen : 0 ≤ len.toInt) (hdefined : CopiesDefined bits pdest pattern len) :
    (∀ k < len.toInt.toNat - len.toInt.toNat % bits.sizeofPointer,
      mempattern bits memory pdest pattern len (pdest + k) =
        memory (pattern + k % bits.sizeofPointer)) ∧
    ∀ a, a < pdest ∨ pdest + (len.toInt.toNat - len.toInt.toNat % bits.sizeofPointer) ≤ a →
      mempattern bits memory pdest pattern len a = memory a := by
  have hfilled : len.toInt.toNat / bits.sizeofPointer * bits.sizeofPointer =
      len.toInt.toNat - len.toInt.toNat % bits.sizeofPointer := by
    have hsplit := Nat.div_add_mod' len.toInt.toNat bits.sizeofPointer
    omega
  have hapart := hdefined.apart
  unfold mempattern
  rw [bits.sizeT_of_nonneg hlen] at hapart ⊢
  rw [← hfilled]
  rcases hapart with hnone | hapart
  · rw [hnone, Nat.zero_mul]
    constructor
    · intro k hk
      cases hk
    · intro a _
      rfl
  · exact fillWords_spec memory hapart

def gPattern1 : List UInt8 := [0xde, 0xad, 0xfa, 0xce, 0xde, 0xad, 0xfa, 0xce]

/-- Two words of the 21 bytes at address 64 are filled. -/
theorem mempattern_fills_two_words :
    (∀ k < 16, mempattern .bits64 (gPattern1.getD · 0) 64 0 21 (64 + k) =
      gPattern1.getD (k % 8) 0) ∧
    ∀ a, a < 64 ∨ 80 ≤ a →
      mempattern .bits64 (gPattern1.getD · 0) 64 0 21 a = gPattern1.getD a 0 := by
  have hdefined : CopiesDefined .bits64 64 0 21 := by
    intro i _
    left
    simp only [Bits.sizeofPointer]
    omega
  have hfills := mempattern_fills .bits64 (gPattern1.getD · 0) 64 0 21 (by decide) hdefined
  have hsize : Bits.bits64.sizeofPointer = 8 := rfl
  have hlen : (21 : Int32).toInt.toNat = 21 := rfl
  rw [hsize, hlen] at hfills
  simpa using hfills

end KernelTrg.VmShow
