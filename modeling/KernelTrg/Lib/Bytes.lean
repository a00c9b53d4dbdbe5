import Mathlib.Data.List.Basic
import Mathlib.Data.List.TakeWhile
import Mathlib.Data.Nat.Digits.Lemmas

/-!
# Byte buffers, C strings and printed numbers

Stores at an offset of a growing sequence (a file, or a buffer written within its
bounds), the strings that C finds in a buffer, and the digits that `printf` writes.
-/

namespace KernelTrg.Bytes

/-! ## Stores -/

section Stores

variable {α : Type*} (fill : α)

/-- Overwrite from an offset on; a gap between the end and the offset is filled. -/
def store (dst : List α) (off : Nat) (src : List α) : List α :=
  dst.take off ++ List.replicate (off - dst.length) fill ++ src ++ dst.drop (off + src.length)

@[simp] theorem length_store (dst : List α) (off : Nat) (src : List α) :
    (store fill dst off src).length = max dst.length (off + src.length) := by
  simp only [store, List.length_append, List.length_take, List.length_replicate,
    List.length_drop]
  omega

theorem store_zero (dst src : List α) :
    store fill dst 0 src = src ++ dst.drop src.length := by
  simp [store]

theorem store_append (front back src : List α) :
    store fill (front ++ back) front.length src = front ++ src ++ back.drop src.length := by
  simp [store, List.drop_append]

theorem drop_store (dst : List α) (off : Nat) (src : List α) :
    (store fill dst off src).drop (off + src.length) = dst.drop (off + src.length) := by
  have hfront : off + src.length =
      (dst.take off ++ List.replicate (off - dst.length) fill ++ src).length := by
    simp only [List.length_append, List.length_take, List.length_replicate]
    omega
  rw [store]
  nth_rewrite 1 [hfront]
  exact List.drop_left

theorem take_drop_store (dst : List α) (off : Nat) (src : List α) :
    ((store fill dst off src).drop off).take src.length = src := by
  have hfront : off = (dst.take off ++ List.replicate (off - dst.length) fill).length := by
    simp only [List.length_append, List.length_take, List.length_replicate]
    omega
  unfold store
  rw [List.append_assoc]
  nth_rewrite 1 [hfront]
  rw [List.drop_left, List.take_left]

theorem store_store (dst : List α) (off : Nat) (first second : List α) :
    store fill (store fill dst off first) (off + first.length) second =
      store fill dst off (first ++ second) := by
  have hfront : off + first.length =
      (dst.take off ++ List.replicate (off - dst.length) fill ++ first).length := by
    simp only [List.length_append, List.length_take, List.length_replicate]
    omega
  rw [show store fill dst off first = dst.take off ++ List.replicate (off - dst.length) fill ++
    first ++ dst.drop (off + first.length) from rfl, hfront, store_append, ← hfront,
    List.drop_drop]
  simp only [store, List.append_assoc, List.length_append, Nat.add_assoc]

end Stores

/-! ## Conversions -/

theorem toNat_toUInt64 (n : Int32) : (n.toInt64.toUInt64.toNat : Int) = n.toInt % 2 ^ 64 := by
  have hwide : n.toInt64.toInt = n.toInt := Int32.toInt_toInt64 n
  have hcond := BitVec.toInt_eq_toNat_cond n.toInt64.toBitVec
  have hnat : n.toInt64.toBitVec.toNat = n.toInt64.toUInt64.toNat := rfl
  have hlt := n.toInt64.toUInt64.toNat_lt
  change n.toInt64.toInt = _ at hcond
  rw [hwide, hnat] at hcond
  split at hcond <;> omega

theorem toInt_toInt32 {n : UInt64} (h : n.toNat < 2 ^ 31) :
    n.toInt64.toInt32.toInt = n.toNat := by
  have hcond := BitVec.toInt_eq_toNat_cond n.toBitVec
  have hnat : n.toBitVec.toNat = n.toNat := rfl
  change n.toInt64.toInt = _ at hcond
  rw [hnat, if_pos (by omega)] at hcond
  rw [Int64.toInt_toInt32, hcond]
  exact Int.bmod_eq_of_le (by omega) (by omega)

theorem toInt_add_of_fits {a b : Int32} (hlow : -2 ^ 31 ≤ a.toInt + b.toInt)
    (hhigh : a.toInt + b.toInt < 2 ^ 31) : (a + b).toInt = a.toInt + b.toInt := by
  rw [Int32.toInt_add]
  exact Int.bmod_eq_of_le (by omega) (by omega)

/-! ## Text up to a delimiter -/

section Delimiters

variable {α : Type*} [DecidableEq α] {d : α} {xs : List α}

theorem notMem_takeWhile : d ∉ xs.takeWhile (· ≠ d) := by
  intro hmem
  have hne := List.mem_takeWhile_imp hmem
  simp at hne

theorem takeWhile_append_of_notMem (h : d ∉ xs) (rest : List α) :
    (xs ++ rest).takeWhile (· ≠ d) = xs ++ rest.takeWhile (· ≠ d) := by
  apply List.takeWhile_append_of_pos
  intro c hc
  have hne : c ≠ d := fun e => h (e ▸ hc)
  simpa using hne

theorem takeWhile_of_notMem (h : d ∉ xs) : xs.takeWhile (· ≠ d) = xs := by
  simpa using takeWhile_append_of_notMem h []

end Delimiters

/-! ## C strings -/

/-- The string at the start of a buffer: the bytes before its first NUL. -/
def cstring (buf : List UInt8) : List UInt8 := buf.takeWhile (· ≠ 0)

theorem cstring_append {s : List UInt8} (hs : 0 ∉ s) (rest : List UInt8) :
    cstring (s ++ rest) = s ++ cstring rest :=
  takeWhile_append_of_notMem hs rest

theorem cstring_of_notMem {s : List UInt8} (h : 0 ∉ s) : cstring s = s :=
  takeWhile_of_notMem h

theorem cstring_append_nul {s : List UInt8} (hs : 0 ∉ s) (rest : List UInt8) :
    cstring (s ++ 0 :: rest) = s := by
  rw [cstring_append hs]
  simp [cstring]

theorem mem_leftpad {α : Type*} {xs : List α} {a c : α} {width : Nat}
    (h : c ∈ xs.leftpad width a) : c = a ∨ c ∈ xs := by
  rw [List.leftpad, List.mem_append, List.mem_replicate] at h
  exact h.imp_left And.right

def ascii (text : String) : List UInt8 := text.toList.map fun c => UInt8.ofNat c.toNat

/-! ## Numerals -/

def hexDigit (d : Nat) : UInt8 := if d < 10 then 48 + UInt8.ofNat d else 87 + UInt8.ofNat d

/-- The digits of a number to a base up to 16, most significant first. -/
def numeral (base n : Nat) : List UInt8 :=
  if n = 0 then [48] else (Nat.digits base n).reverse.map hexDigit

/-- The number that a text of digits to a base up to 10 stands for. -/
def numeralValue (base : Nat) (text : List UInt8) : Nat :=
  text.foldl (fun acc b => base * acc + (b.toNat - 48)) 0

section Numerals

variable {base n : Nat} (hbase : 1 < base)

include hbase

theorem length_numeral (n : Nat) : (numeral base n).length = Nat.log base n + 1 := by
  unfold numeral
  by_cases hn : n = 0
  · simp [hn]
  · simp [hn, Nat.length_digits base n hbase hn]

theorem numeral_ne_nil (n : Nat) : numeral base n ≠ [] := by
  intro h
  have hlength := length_numeral hbase n
  rw [h] at hlength
  cases hlength

theorem mem_numeral {c : UInt8} (h : c ∈ numeral base n) : ∃ d < base, c = hexDigit d := by
  unfold numeral at h
  split at h
  · exact ⟨0, by omega, List.mem_singleton.mp h⟩
  · obtain ⟨d, hd, rfl⟩ := List.mem_map.mp h
    exact ⟨d, Nat.digits_lt_base hbase (List.mem_reverse.mp hd), rfl⟩

omit hbase in
theorem foldl_digits (digits : List Nat) (acc : Nat) (h : ∀ d ∈ digits, d < 10) :
    (digits.reverse.map hexDigit).foldl (fun acc b => base * acc + (b.toNat - 48)) acc =
      acc * base ^ digits.length + Nat.ofDigits base digits := by
  induction digits with
  | nil => simp
  | cons d digits ih =>
      have hd : (hexDigit d).toNat - 48 = d := by
        have hlt : d < 10 := h d (by simp)
        interval_cases d <;> rfl
      rw [List.reverse_cons, List.map_append, List.foldl_append,
        ih fun x hx => h x (by simp [hx])]
      simp only [List.map_cons, List.map_nil, List.foldl_cons, List.foldl_nil, hd,
        Nat.ofDigits_cons, List.length_cons]
      ring

/-- A number is read back from its digits, also behind zeros. -/
theorem numeralValue_leftpad (hten : base ≤ 10) (n width : Nat) :
    numeralValue base ((numeral base n).leftpad width 48) = n := by
  have hzeros : ∀ k, (List.replicate k (48 : UInt8)).foldl
      (fun acc b => base * acc + (b.toNat - 48)) 0 = 0 := by
    intro k
    induction k with
    | zero => rfl
    | succ k ih => simpa [List.replicate_succ] using ih
  unfold numeralValue
  rw [List.leftpad, List.foldl_append, hzeros]
  by_cases hn : n = 0
  · subst hn
    rfl
  · have hdigits := @foldl_digits base (Nat.digits base n) 0 fun d hd =>
      (Nat.digits_lt_base hbase hd).trans_le hten
    simpa [numeral, hn, Nat.ofDigits_digits] using hdigits

end Numerals

/-! ## Decimal text -/

def decimal (n : Nat) : List UInt8 := numeral 10 n

def signedDecimal (z : Int) : List UInt8 :=
  if z < 0 then 45 :: decimal z.natAbs else decimal z.natAbs

def decimalWidth (n : Nat) : Nat := Nat.log 10 n + 1

def signedWidth (z : Int) : Nat :=
  if z < 0 then decimalWidth z.natAbs + 1 else decimalWidth z.natAbs

@[simp] theorem length_decimal (n : Nat) : (decimal n).length = decimalWidth n :=
  length_numeral (by decide) n

@[simp] theorem length_signedDecimal (z : Int) :
    (signedDecimal z).length = signedWidth z := by
  unfold signedDecimal signedWidth
  split <;> simp

theorem mem_decimal {n : Nat} {c : UInt8} (h : c ∈ decimal n) : 48 ≤ c ∧ c ≤ 57 := by
  obtain ⟨d, hd, rfl⟩ := mem_numeral (by decide) h
  interval_cases d <;> decide

theorem nul_notMem_decimal (n : Nat) : 0 ∉ decimal n :=
  fun h => absurd (mem_decimal h).1 (by decide)

theorem nul_notMem_signedDecimal (z : Int) : 0 ∉ signedDecimal z := by
  unfold signedDecimal
  split <;> simp [nul_notMem_decimal]

theorem decimal_ne_nil (n : Nat) : decimal n ≠ [] := numeral_ne_nil (by decide) n

theorem mem_signedDecimal {z : Int} {c : UInt8} (h : c ∈ signedDecimal z) :
    c = 45 ∨ 48 ≤ c ∧ c ≤ 57 := by
  unfold signedDecimal at h
  split at h
  · rcases List.mem_cons.mp h with h | h
    · exact .inl h
    · exact .inr (mem_decimal h)
  · exact .inr (mem_decimal h)

theorem decimalWidth_le_iff {n k : Nat} (hk : 0 < k) : decimalWidth n ≤ k ↔ n < 10 ^ k := by
  unfold decimalWidth
  by_cases hn : n = 0
  · simp [hn]
    omega
  · rw [Nat.add_one_le_iff, Nat.log_lt_iff_lt_pow (by decide) hn]

def decimalValue (text : List UInt8) : Nat := numeralValue 10 text

theorem decimalValue_leftpad (n width : Nat) :
    decimalValue ((decimal n).leftpad width 48) = n :=
  numeralValue_leftpad (by decide) le_rfl n width

theorem decimalValue_decimal (n : Nat) : decimalValue (decimal n) = n := by
  simpa using decimalValue_leftpad n 0

theorem decimal_inj {m n : Nat} (h : decimal m = decimal n) : m = n := by
  rw [← decimalValue_decimal m, h, decimalValue_decimal]

theorem signedDecimal_inj {z z' : Int} (h : signedDecimal z = signedDecimal z') : z = z' := by
  have hminus : ∀ n text, decimal n ≠ 45 :: text := by
    intro n text heq
    exact absurd (mem_decimal (n := n) (heq ▸ List.mem_cons_self)).1 (by decide)
  unfold signedDecimal at h
  split at h <;> split at h
  · have habs := decimal_inj (List.cons.inj h).2
    omega
  · exact absurd h.symm (hminus _ _)
  · exact absurd h (hminus _ _)
  · have habs := decimal_inj h
    omega

/-! ## Binary text -/

def binary (n : Nat) : List UInt8 := numeral 2 n

def binaryValue (text : List UInt8) : Nat := numeralValue 2 text

theorem mem_binary {n : Nat} {c : UInt8} (h : c ∈ binary n) : c = 48 ∨ c = 49 := by
  obtain ⟨d, hd, rfl⟩ := mem_numeral (by decide) h
  interval_cases d <;> decide

theorem length_binary_le {n k : Nat} (hk : 0 < k) (h : n < 2 ^ k) : (binary n).length ≤ k := by
  rw [binary, length_numeral (by decide)]
  by_cases hn : n = 0
  · simp [hn]
    omega
  · exact Nat.log_lt_of_lt_pow hn h

theorem head?_binary {n : Nat} (hn : n ≠ 0) : (binary n).head? = some 49 := by
  have hne : Nat.digits 2 n ≠ [] := Nat.digits_ne_nil_iff_ne_zero.mpr hn
  have hlast := Nat.getLast_digit_ne_zero 2 hn
  have hlt := Nat.digits_lt_base (by decide) (List.getLast_mem hne)
  have hone : (Nat.digits 2 n).getLast hne = 1 := by omega
  rw [binary, numeral, if_neg hn, List.head?_map, List.head?_reverse, List.getLast?_eq_some_getLast hne, hone]
  rfl

theorem binaryValue_binary (n : Nat) : binaryValue (binary n) = n := by
  simpa [binary, binaryValue] using @numeralValue_leftpad 2 (by decide) (by decide) n 0

theorem binary_succ_half {n : Nat} (h : 0 < n / 2) :
    binary n = binary (n / 2) ++ [48 + UInt8.ofNat (n % 2)] := by
  have hdigit : hexDigit (n % 2) = 48 + UInt8.ofNat (n % 2) := if_pos (by omega)
  unfold binary numeral
  rw [if_neg (by omega), if_neg (by omega), Nat.digits_def' (by decide) (by omega),
    List.reverse_cons, List.map_append, List.map_singleton, hdigit]

theorem binary_of_half {n : Nat} (h : ¬0 < n / 2) : binary n = [48 + UInt8.ofNat (n % 2)] := by
  have hn : n = 0 ∨ n = 1 := by omega
  rcases hn with rfl | rfl <;> rfl

/-! ## Hexadecimal text -/

def hexadecimal (n : Nat) : List UInt8 := numeral 16 n

def hexDigitValue (b : UInt8) : Option Nat :=
  if 48 ≤ b ∧ b ≤ 57 then some (b.toNat - 48)
  else if 97 ≤ b ∧ b ≤ 102 then some (b.toNat - 87)
  else if 65 ≤ b ∧ b ≤ 70 then some (b.toNat - 55)
  else none

def hexValue (text : List UInt8) : Option Nat :=
  text.foldlM (fun acc b => (hexDigitValue b).map fun d => 16 * acc + d) 0

theorem hexDigitValue_hexDigit {d : Nat} (h : d < 16) : hexDigitValue (hexDigit d) = some d := by
  interval_cases d <;> decide

theorem hexDigit_lower {d : Nat} (h : d < 16) :
    48 ≤ hexDigit d ∧ hexDigit d ≤ 57 ∨ 97 ≤ hexDigit d ∧ hexDigit d ≤ 102 := by
  interval_cases d <;> decide

theorem hexadecimal_ne_nil (n : Nat) : hexadecimal n ≠ [] := numeral_ne_nil (by decide) n

theorem mem_hexadecimal {n : Nat} {b : UInt8} (h : b ∈ hexadecimal n) :
    48 ≤ b ∧ b ≤ 57 ∨ 97 ≤ b ∧ b ≤ 102 := by
  obtain ⟨d, hd, rfl⟩ := mem_numeral (by decide) h
  exact hexDigit_lower hd

theorem mem_padded_hexadecimal {n width : Nat} {b : UInt8}
    (h : b ∈ (hexadecimal n).leftpad width 48) : 48 ≤ b ∧ b ≤ 57 ∨ 97 ≤ b ∧ b ≤ 102 := by
  rcases mem_leftpad h with rfl | hdigit
  · decide
  · exact mem_hexadecimal hdigit

theorem foldlM_hexDigits (digits : List Nat) (acc : Nat) (h : ∀ d ∈ digits, d < 16) :
    (digits.reverse.map hexDigit).foldlM
      (fun acc b => (hexDigitValue b).map fun d => 16 * acc + d) acc =
      some (acc * 16 ^ digits.length + Nat.ofDigits 16 digits) := by
  induction digits with
  | nil => simp
  | cons d digits ih =>
      have hd := hexDigitValue_hexDigit (h d (by simp))
      rw [List.reverse_cons, List.map_append, List.foldlM_append,
        ih fun x hx => h x (by simp [hx])]
      simp only [List.map_cons, List.map_nil, Option.bind_eq_bind, Option.bind_some,
        List.foldlM_cons, hd, Option.map_some, List.foldlM_nil, Nat.ofDigits_cons,
        List.length_cons, Option.pure_def, Option.some_inj]
      ring

/-- A number is read back from its digits, also behind zeros. -/
theorem hexValue_leftpad (n width : Nat) :
    hexValue ((hexadecimal n).leftpad width 48) = some n := by
  have hzeros : ∀ k, (List.replicate k (48 : UInt8)).foldlM
      (fun acc b => (hexDigitValue b).map fun d => 16 * acc + d) 0 = some 0 := by
    intro k
    induction k with
    | zero => rfl
    | succ k ih => simpa [List.replicate_succ, hexDigitValue] using ih
  unfold hexValue
  rw [List.leftpad, List.foldlM_append, hzeros]
  by_cases hn : n = 0
  · subst hn
    rfl
  · have hdigits := foldlM_hexDigits (Nat.digits 16 n) 0 fun d hd =>
      Nat.digits_lt_base (by decide) hd
    simpa [hexadecimal, numeral, hn, Nat.ofDigits_digits] using hdigits

end KernelTrg.Bytes
