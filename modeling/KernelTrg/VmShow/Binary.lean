import KernelTrg.Lib.Bytes

/-!
# Binary text of a number

`dec2bin` stores the binary digits of a number in `temp`, the last one first, then a sign, and
copies them in reverse. The kernel is built so that a signed overflow wraps around. The test of
the reversing loop lets one turn too many through, which reads what is stored in front of `temp`.
-/

namespace KernelTrg.VmShow

open Bytes

abbrev tempSize : Nat := 80

/-- `temp[k++] = b`; `none` is a store outside of the array. -/
def pushTemp (temp : List UInt8) (b : UInt8) : Option (List UInt8) :=
  if temp.length < tempSize then some (temp ++ [b]) else none

/-- The loop over the digits, for at most so many turns. -/
def digitLoop : Nat → Int64 → List UInt8 → Option (List UInt8)
  | 0, _, _ => none
  | turns + 1, decimal, temp =>
      let remain := (decimal % 2).toInt32
      let decimal := decimal / 2
      (pushTemp temp (UInt8.ofNat (remain + 48).toInt.toNat)).bind fun temp =>
        if 0 < decimal then digitLoop turns decimal temp else some temp

/-- `temp[i]`, where `temp` is written up to a length; elsewhere it is what happens to be there. -/
def tempAt (stray : Int → UInt8) (temp : List UInt8) (i : Int) : UInt8 :=
  if 0 ≤ i ∧ i < temp.length then temp.getD i.toNat 0 else stray i

/-- `while (k >= 0) binary[n++] = temp[--k]`, from `k` one less than given: the indices that are
read, and the bytes. -/
def reverseLoop (stray : Int → UInt8) (temp : List UInt8) : Nat → List (Int × UInt8)
  | 0 => []
  | k + 1 => ((k : Int) - 1, tempAt stray temp (k - 1)) :: reverseLoop stray temp k

/-- What is written in `temp`, which of it is read, and what is stored in `binary`. -/
structure Spelled where
  temp : List UInt8
  reads : List Int
  binary : List UInt8
deriving DecidableEq, Repr

/-- The reversal of `temp`, and the NUL over the last byte that it stores. -/
def spell (stray : Int → UInt8) (temp : List UInt8) : Spelled :=
  let moved := reverseLoop stray temp (temp.length + 1)
  ⟨temp, moved.map Prod.fst, (moved.map Prod.snd).set (moved.length - 1) 0⟩

def dec2bin (stray : Int → UInt8) (decimal : Int64) : Option Spelled :=
  let negFlag := decimal < 0
  let decimal := if negFlag then -decimal else decimal
  (digitLoop 64 decimal []).bind fun temp =>
    (pushTemp temp (if negFlag then 45 else 32)).map (spell stray)

/-- A minus sign or a blank, and binary digits without leading zeros. -/
def parseBinary : List UInt8 → Option Int
  | [] => none
  | sign :: digits =>
      if (sign = 45 ∨ sign = 32) ∧ (digits.all fun c => c = 48 || c = 49) ∧
          (digits = [48] ∨ digits.head? = some 49) then
        some (if sign = 45 then -(binaryValue digits : Int) else binaryValue digits)
      else none

/-- The bytes are a string that ends with them and stands for the number. -/
def Spells (bytes : List UInt8) (v : Int) : Prop :=
  ∃ text, bytes = text ++ [0] ∧ 0 ∉ text ∧ parseBinary text = some v

/-- The function reads what it has written in `temp`, and the text stands for the number. -/
structure Faithful (d : Spelled) (v : Int) : Prop where
  reads : ∀ i ∈ d.reads, 0 ≤ i ∧ i < d.temp.length
  spells : Spells d.binary v

variable {stray : Int → UInt8} {decimal : Int64} {temp : List UInt8} {n k turns : Nat}

/-! ## The digits -/

theorem pushTemp_of_lt (h : temp.length < tempSize) (b : UInt8) :
    pushTemp temp b = some (temp ++ [b]) := if_pos h

theorem toInt_half (h : decimal.toInt = n) :
    (decimal / 2).toInt = (n / 2 : Nat) ∧ (decimal % 2).toInt32.toInt = (n % 2 : Nat) := by
  have hne : decimal ≠ Int64.minValue := by
    intro hmin
    rw [hmin, Int64.toInt_minValue] at h
    omega
  have htwo : (2 : Int64).toInt = 2 := rfl
  constructor
  · rw [Int64.toInt_div_of_ne_left _ _ hne, h, htwo]
    exact Int.ofNat_tdiv n 2
  · have hmod : (decimal % 2).toInt = (n % 2 : Nat) := by
      rw [Int64.toInt_mod, h, htwo]
      exact Int.ofNat_tmod n 2
    rw [Int64.toInt_toInt32, hmod]
    exact Int.bmod_eq_of_le (by omega) (by omega)

theorem remainDigit {remain : Int32} (h : remain.toInt = (n % 2 : Nat)) :
    UInt8.ofNat (remain + 48).toInt.toNat = 48 + UInt8.ofNat (n % 2) := by
  rcases Nat.mod_two_eq_zero_or_one n with hmod | hmod
  · have hremain : remain = 0 := Int32.toInt_inj.mp (by rw [h, hmod]; rfl)
    rw [hremain, hmod]
    rfl
  · have hremain : remain = 1 := Int32.toInt_inj.mp (by rw [h, hmod]; rfl)
    rw [hremain, hmod]
    rfl

theorem digitLoop_succ (h : decimal.toInt = n) (hroom : temp.length < tempSize) :
    digitLoop (turns + 1) decimal temp =
      if 0 < n / 2 then digitLoop turns (decimal / 2) (temp ++ [48 + UInt8.ofNat (n % 2)])
      else some (temp ++ [48 + UInt8.ofNat (n % 2)]) := by
  obtain ⟨hhalf, hremain⟩ := toInt_half h
  have hmore : 0 < decimal / 2 ↔ 0 < n / 2 := by
    rw [Int64.lt_iff_toInt_lt, hhalf, Int64.toInt_zero]
    omega
  rw [digitLoop]
  simp only [remainDigit hremain, pushTemp_of_lt hroom, Option.bind_some, hmore]

/-- The digits are stored with the last one first. -/
theorem digitLoop_eq (h : decimal.toInt = n) (hlt : n < 2 ^ (turns + 1))
    (hroom : temp.length + turns < tempSize) :
    digitLoop (turns + 1) decimal temp = some (temp ++ (binary n).reverse) := by
  induction turns generalizing decimal n temp with
  | zero =>
      have hend : ¬0 < n / 2 := by omega
      rw [digitLoop_succ h (by omega), if_neg hend, binary_of_half hend]
      rfl
  | succ turns ih =>
      rw [digitLoop_succ h (by omega)]
      by_cases hmore : 0 < n / 2
      · rw [if_pos hmore, ih (toInt_half h).1 (by omega) (by simp; omega),
          binary_succ_half hmore]
        simp
      · rw [if_neg hmore, binary_of_half hmore]
        rfl

/-! ## The reversal -/

theorem reverseLoop_bytes (hk : k ≤ temp.length) :
    (reverseLoop stray temp (k + 1)).map Prod.snd =
      (temp.take k).reverse ++ [stray (-1)] := by
  induction k with
  | zero => rfl
  | succ k ih =>
      unfold reverseLoop
      have hin : 0 ≤ ((k + 1 : Nat) : Int) - 1 ∧ ((k + 1 : Nat) : Int) - 1 < temp.length := by omega
      have hindex : (((k + 1 : Nat) : Int) - 1).toNat = k := by omega
      rw [List.map_cons, ih (by omega), tempAt, if_pos hin, hindex, List.getD_eq_getElem?_getD,
        List.getElem?_eq_getElem (by omega), Option.getD_some,
        List.take_succ_eq_append_getElem (by omega), List.reverse_append]
      rfl

/-- The last index is that in front of the array. -/
theorem reverseLoop_reads (k : Nat) :
    -1 ∈ (reverseLoop stray temp (k + 1)).map Prod.fst := by
  induction k with
  | zero => exact List.mem_cons_self
  | succ k ih =>
      unfold reverseLoop
      exact List.mem_cons_of_mem _ ih

theorem length_reverseLoop (k : Nat) : (reverseLoop stray temp k).length = k := by
  induction k with
  | zero => rfl
  | succ k ih =>
      unfold reverseLoop
      rw [List.length_cons, ih]

/-- All of `temp` is copied in reverse, and the byte read in front of it makes room for the NUL. -/
theorem spell_binary (stray : Int → UInt8) (temp : List UInt8) :
    (spell stray temp).binary = temp.reverse ++ [0] := by
  simp only [spell]
  rw [reverseLoop_bytes le_rfl, length_reverseLoop, List.take_length, Nat.add_sub_cancel,
    ← List.length_reverse, List.set_append_right _ _ le_rfl, Nat.sub_self]
  rfl

/-! ## The text -/

theorem mem_binary_ne_zero {c : UInt8} (h : c ∈ binary n) : c ≠ 0 := by
  rcases mem_binary h with rfl | rfl <;> decide

theorem parseBinary_binary (n : Nat) {sign : UInt8} (hsign : sign = 45 ∨ sign = 32) :
    parseBinary (sign :: binary n) = some (if sign = 45 then -(n : Int) else n) := by
  have hhead : binary n = [48] ∨ (binary n).head? = some 49 := by
    by_cases hn : n = 0
    · subst hn
      exact .inl rfl
    · exact .inr (head?_binary hn)
  have hbits : ((binary n).all fun c => c = 48 || c = 49) = true := by
    rw [List.all_eq_true]
    intro c hc
    simpa using mem_binary hc
  rw [parseBinary, if_pos ⟨hsign, hbits, hhead⟩, binaryValue_binary]

theorem neg_iff (v : Int64) : v < 0 ↔ v.toInt < 0 := by
  rw [Int64.lt_iff_toInt_lt]
  exact Iff.rfl

theorem toInt_magnitude {v : Int64} (h : v ≠ Int64.minValue) :
    (if v < 0 then -v else v).toInt = (v.toInt.natAbs : Int) := by
  have hne : v.toInt ≠ Int64.minValue.toInt := fun heq => h (Int64.toInt_inj.mp heq)
  have hlow := v.le_toInt
  rw [Int64.toInt_minValue] at hne
  simp only [neg_iff]
  split
  · next hneg =>
    have hexact : (-v.toInt).bmod (2 ^ 64) = -v.toInt := Int.bmod_eq_of_le (by omega) (by omega)
    rw [Int64.toInt_neg, hexact]
    omega
  · omega

theorem dec2bin_eq (stray : Int → UInt8)
    (hmagnitude : (if decimal < 0 then -decimal else decimal).toInt = n) :
    dec2bin stray decimal =
      some (spell stray ((binary n).reverse ++ [if decimal < 0 then 45 else 32])) := by
  have hlt : n < 2 ^ (63 + 1) := by
    have hmax := (if decimal < 0 then -decimal else decimal).toInt_lt
    omega
  have hempty : ([] : List UInt8).length + 63 < tempSize := by decide
  have hdigits := digitLoop_eq hmagnitude hlt hempty
  have hlength : (binary n).reverse.length < tempSize := by
    have hle := length_binary_le (by decide) hlt
    rw [List.length_reverse]
    exact lt_of_le_of_lt hle (by decide)
  have hsign := pushTemp_of_lt hlength (if decimal < 0 then 45 else 32)
  unfold dec2bin
  simp only [hdigits, List.nil_append, Option.bind_some, hsign, Option.map_some]

theorem not_faithful_spell (stray : Int → UInt8) (temp : List UInt8) (v : Int) :
    ¬Faithful (spell stray temp) v := by
  intro h
  have hread := h.reads (-1) (reverseLoop_reads temp.length)
  omega

/-- The magnitude of the smallest number wraps around to that number, whose only digit is 0. -/
theorem dec2bin_minValue (stray : Int → UInt8) :
    dec2bin stray Int64.minValue = some (spell stray [48, 45]) := rfl

theorem not_spells_minValue (stray : Int → UInt8) :
    ¬Spells (spell stray [48, 45]).binary Int64.minValue.toInt := by
  intro h
  obtain ⟨text, htext, -, hparse⟩ := h
  rw [spell_binary] at htext
  rw [← List.append_cancel_right htext] at hparse
  exact absurd hparse (by decide)

theorem spells_of_ne (stray : Int → UInt8) {v : Int64} (h : v ≠ Int64.minValue) :
    ∃ temp, dec2bin stray v = some (spell stray temp) ∧
      Spells (spell stray temp).binary v.toInt := by
  refine ⟨_, dec2bin_eq stray (toInt_magnitude h), ?_⟩
  rw [spell_binary, List.reverse_append, List.reverse_reverse, List.reverse_singleton,
    List.singleton_append]
  refine ⟨_, rfl, ?_, ?_⟩
  · rw [List.mem_cons, not_or]
    exact ⟨by split <;> decide, fun hmem => mem_binary_ne_zero hmem rfl⟩
  · rw [parseBinary_binary _ (by split <;> simp)]
    simp only [neg_iff, Option.some_inj]
    split
    · next hneg =>
      rw [if_pos rfl]
      omega
    · next hneg =>
      rw [if_neg (by decide)]
      omega

/-- Every run reads a byte in front of `temp`. The text stands for the number all the same, unless
that is the smallest one. -/
theorem dec2bin_spells (stray : Int → UInt8) (v : Int64) :
    ∃ d, dec2bin stray v = some d ∧ ¬Faithful d v.toInt ∧
      (Spells d.binary v.toInt ↔ v ≠ Int64.minValue) := by
  by_cases hmin : v = Int64.minValue
  · subst hmin
    refine ⟨_, dec2bin_minValue stray, not_faithful_spell stray _ _, ?_⟩
    exact iff_of_false (not_spells_minValue stray) (fun hne => hne rfl)
  · obtain ⟨temp, hd, hspells⟩ := spells_of_ne stray hmin
    exact ⟨_, hd, not_faithful_spell stray _ _, iff_of_true hspells hmin⟩

/-- The number 6 is spelled `110`, from four bytes of `temp` and one in front of it. -/
theorem dec2bin_six :
    dec2bin (fun _ => 170) 6 = some ⟨[48, 49, 49, 32], [3, 2, 1, 0, -1], [32, 49, 49, 48, 0]⟩ ∧
      ¬Faithful ⟨[48, 49, 49, 32], [3, 2, 1, 0, -1], [32, 49, 49, 48, 0]⟩ 6 := by
  refine ⟨by decide, ?_⟩
  intro h
  have hread := h.reads (-1) (by decide)
  omega

end KernelTrg.VmShow
