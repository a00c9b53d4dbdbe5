import KernelTrg.MmapSimple.Lines

/-!
# The range that is dumped

`main` checks the offset and the length as 64-bit numbers, whose sum may wrap around,
and hands them to `hex_dump` as `int`. `hex_dump` comes to its end where its labels have six
digits.
-/

namespace KernelTrg.MmapSimple

open Bytes

inductive Refusal where
  | zeroSize
  | badLength
  | badOffset
deriving DecidableEq, Repr

def check (fsz off len : Int64) : Option Refusal :=
  if fsz = 0 then some .zeroSize
  else if len ≤ 0 then some .badLength
  else if off < 0 ∨ fsz < off + len then some .badOffset
  else none

def mapped (file : List UInt8) (k : Int) : Option UInt8 :=
  if 0 ≤ k then file[k.toNat]? else none

/-- `main`, for a file that is opened and mapped at the address `addr`; `off` and `len` are
what `atol` makes of the arguments. -/
def mmapSimple (file : List UInt8) (addr : Nat) (off len : Int64) :
    Except Refusal (Option Dump) :=
  match check (Int64.ofNat file.length) off len with
  | some refusal => .error refusal
  | none => .ok (hexDump (fun i => mapped file (off.toInt + i)) (addr + off.toInt.toNat) off.toInt32
      len.toInt32 (some (ascii "Data")) false)

/-- The range lies within the file, `hex_dump` is given it unchanged, and dumps it and reads
nothing else. -/
structure Exact (file : List UInt8) (addr : Nat) (off len : Int64) : Prop where
  inside : 0 ≤ off.toInt ∧ off.toInt + len.toInt ≤ file.length
  offset : off.toInt32.toInt = off.toInt
  size : len.toInt32.toInt = len.toInt
  dumped : ∃ d, mmapSimple file addr off len = .ok (some d) ∧
    d.dumped = (file.drop off.toInt.toNat).take len.toInt.toNat

variable {file : List UInt8} {addr : Nat} {fsz off len n : Int64}

theorem check_eq_none (h : check fsz off len = none) :
    0 < len.toInt ∧ 0 ≤ off.toInt ∧
      (off.toInt + len.toInt < 2 ^ 63 → off.toInt + len.toInt ≤ fsz.toInt) := by
  unfold check at h
  split at h
  · cases h
  · split at h
    · cases h
    · split at h
      · cases h
      · next hlen hoff =>
        simp only [Int64.le_iff_toInt_le, Int64.lt_iff_toInt_lt, Int64.toInt_zero, not_or,
          Int.not_le, Int.not_lt, Int64.toInt_add] at hlen hoff
        refine ⟨hlen, hoff.1, fun hsum => ?_⟩
        have hexact : (off.toInt + len.toInt).bmod (2 ^ 64) = off.toInt + len.toInt :=
          Int.bmod_eq_of_le (by omega) (by omega)
        rw [hexact] at hoff
        exact hoff.2

theorem toInt32_eq_iff (h : 0 ≤ n.toInt) : n.toInt32.toInt = n.toInt ↔ n.toInt < 2 ^ 31 := by
  constructor
  · intro heq
    have hlt : n.toInt32.toInt < 2 ^ 31 := Int32.toInt_lt _
    omega
  · intro hlt
    rw [Int64.toInt_toInt32]
    exact Int.bmod_eq_of_le (by omega) (by omega)

/-- The bytes of a range within the file are those that `hex_dump` finds behind its address. -/
theorem mapped_range (hoff : 0 ≤ off.toInt) (hlen : 0 ≤ len.toInt)
    (hinside : off.toInt + len.toInt ≤ file.length) :
    ((file.drop off.toInt.toNat).take len.toInt.toNat).length = len.toInt.toNat ∧
      ∀ i (hi : i < ((file.drop off.toInt.toNat).take len.toInt.toNat).length),
        mapped file (off.toInt + i) =
          some ((file.drop off.toInt.toNat).take len.toInt.toNat)[i] := by
  have hlength : ((file.drop off.toInt.toNat).take len.toInt.toNat).length = len.toInt.toNat := by
    rw [List.length_take, List.length_drop]
    omega
  refine ⟨hlength, fun i hi => ?_⟩
  rw [hlength] at hi
  have hindex : (off.toInt + (i : Int)).toNat = off.toInt.toNat + i := by omega
  unfold mapped
  rw [if_pos (by omega), hindex, List.getElem_take, List.getElem_drop]
  exact List.getElem?_eq_getElem _

/-- What the program does with a range that ends below 2^31. -/
theorem mmapSimple_cases (addr : Nat) (h : check (Int64.ofNat file.length) off len = none)
    (hoff31 : off.toInt < 2 ^ 31) (hlen31 : len.toInt < 2 ^ 31)
    (hinside : off.toInt + len.toInt ≤ file.length) :
    (off.toInt + 16 * ((len.toInt - 1) / 16) < 1000000 ∧
      ∃ d, mmapSimple file addr off len = .ok (some d) ∧
        Dumps off.toInt32 [] ((file.drop off.toInt.toNat).take len.toInt.toNat) d) ∨
      1000000 ≤ off.toInt + 16 * ((len.toInt - 1) / 16) ∧
        mmapSimple file addr off len = .ok none := by
  obtain ⟨hlen, hoff, -⟩ := check_eq_none h
  obtain ⟨hlength, hdata⟩ := mapped_range hoff hlen.le hinside
  have hsize : len.toInt32.toInt = len.toInt := (toInt32_eq_iff hlen.le).mpr hlen31
  have hoff32 : off.toInt32.toInt = off.toInt := (toInt32_eq_iff hoff).mpr hoff31
  have hcases := hexDump_cases (addr + off.toInt.toNat) off.toInt32 len.toInt32
    (some (ascii "Data")) false (by rw [hsize, hlength]; omega) hdata
  have hlines : ((len.toInt.toNat - 1) / 16 : Nat) = (len.toInt - 1) / 16 := by omega
  unfold mmapSimple
  rw [h]
  rw [LabelsFit, hlength, hoff32, hlines] at hcases
  rcases hcases with ⟨hfit, d, hd, hdump⟩ | ⟨hfit, hnone⟩
  · exact .inl ⟨hfit.2, d, congrArg Except.ok hd, hdump⟩
  · exact .inr ⟨by omega, congrArg Except.ok hnone⟩

/-- For accepted arguments the dump is that of the range exactly where the last line starts below
offset 1000000; both arguments fit an `int` then. -/
theorem mmapSimple_exact_iff (hfile : file.length < 2 ^ 63)
    (h : check (Int64.ofNat file.length) off len = none) :
    Exact file addr off len ↔ off.toInt + 16 * ((len.toInt - 1) / 16) < 1000000 := by
  obtain ⟨hlen, hoff, hsum⟩ := check_eq_none h
  rw [Int64.toInt_ofNat_of_lt hfile] at hsum
  constructor
  · intro hexact
    have hoff31 := (toInt32_eq_iff hoff).mp hexact.offset
    have hlen31 := (toInt32_eq_iff hlen.le).mp hexact.size
    rcases mmapSimple_cases addr h hoff31 hlen31 hexact.inside.2 with ⟨hlast, -⟩ | ⟨-, hnone⟩
    · exact hlast
    · rcases hexact.dumped with ⟨d, hd, -⟩
      rw [hnone] at hd
      cases hd
  · intro hlast
    have hinside := hsum (by omega)
    rcases mmapSimple_cases addr h (by omega) (by omega) hinside with ⟨-, d, hd, hdump⟩ | ⟨hle, -⟩
    · exact ⟨⟨hoff, hinside⟩, (toInt32_eq_iff hoff).mpr (by omega),
        (toInt32_eq_iff hlen.le).mpr (by omega), d, hd, hdump.dumped⟩
    · omega

/-- The last two bytes of a file of three. -/
theorem mmapSimple_exact_two : Exact [1, 2, 3] 4096 1 2 :=
  (mmapSimple_exact_iff (by decide) (by decide)).mpr (by decide)

/-- The sum of the largest offset and 1 wraps around, and the byte far behind a file of one
byte is accepted. -/
theorem mmapSimple_wraps :
    check (Int64.ofNat [(1 : UInt8)].length) 9223372036854775807 1 = none ∧
      ¬Exact [1] 4096 9223372036854775807 1 := by
  refine ⟨by decide, fun h => ?_⟩
  have hinside := h.inside.2
  exact absurd hinside (by decide)

end KernelTrg.MmapSimple
