import KernelTrg.Iomem.Script

/-!
# Lines of the memory map

A line as the kernel prints it: two blanks for each level, the first and the last address,
and the name. The script takes the addresses apart as they were printed, and the name up
to its first colon.
-/

namespace KernelTrg.Iomem

open Bytes Shell

@[ext]
structure Name where
  text : List UInt8
  newline_notMem : 10 ∉ text
  nul_notMem : 0 ∉ text
deriving Repr

instance : DecidableEq Name := fun a b => decidable_of_iff (a.text = b.text) Name.ext_iff.symm

structure Line where
  depth : Nat
  start : UInt64
  stop : UInt64
  name : Name
deriving DecidableEq, Repr

def addrText (a : UInt64) : List UInt8 := (hexadecimal a.toNat).leftpad 8 48

namespace Line

def range (l : Line) : List UInt8 :=
  (List.replicate (2 * l.depth) 32 ++ addrText l.start) ++ 45 :: (addrText l.stop ++ [32])

def text (l : Line) : List UInt8 := l.range ++ 58 :: 32 :: l.name.text

def size (l : Line) : Int64 := Int64.ofNat l.stop.toNat - Int64.ofNat l.start.toNat

end Line

def printed (lines : List Line) : List UInt8 := unlines (lines.map Line.text)

variable {l : Line} {a : UInt64} {c : UInt8} {lines : List Line}

/-! ## Differences of addresses -/

/-- A difference of two addresses, but for wraps of 64 bits. -/
theorem toInt_sub_wraps (a b : UInt64) :
    ∃ k : Int, (Int64.ofNat a.toNat - Int64.ofNat b.toNat).toInt =
      (a.toNat : Int) - b.toNat + 2 ^ 64 * k := by
  have hsub : Int64.ofNat a.toNat - Int64.ofNat b.toNat =
      Int64.ofInt ((a.toNat : Int) - b.toNat) := by
    rw [Int64.ofInt_sub, Int64.ofInt_eq_ofNat, Int64.ofInt_eq_ofNat]
  obtain ⟨k, hk⟩ := Int.dvd_bmod_sub_self (x := (a.toNat : Int) - b.toNat) (m := 2 ^ 64)
  refine ⟨k, ?_⟩
  rw [hsub, Int64.toInt_ofInt]
  push_cast at hk
  simp only [Int64.size]
  omega

theorem toInt_sub_eq {a b : UInt64} (hlow : -2 ^ 63 ≤ (a.toNat : Int) - b.toNat)
    (hhigh : (a.toNat : Int) - b.toNat < 2 ^ 63) :
    (Int64.ofNat a.toNat - Int64.ofNat b.toNat).toInt = (a.toNat : Int) - b.toNat := by
  obtain ⟨k, hk⟩ := toInt_sub_wraps a b
  have hmin := Int64.le_toInt (Int64.ofNat a.toNat - Int64.ofNat b.toNat)
  have hmax := Int64.toInt_lt (Int64.ofNat a.toNat - Int64.ofNat b.toNat)
  omega

theorem Line.toInt_size (hstart : l.start.toNat < 2 ^ 63) (hstop : l.stop.toNat < 2 ^ 63) :
    l.size.toInt = (l.stop.toNat : Int) - l.start.toNat :=
  toInt_sub_eq (by omega) (by omega)

/-! ## The bytes of a line -/

theorem mem_addrText (h : c ∈ addrText a) : 48 ≤ c ∧ c ≤ 57 ∨ 97 ≤ c ∧ c ≤ 102 := by
  unfold addrText at h
  exact mem_padded_hexadecimal h

theorem notMem_addrText (h : c < 48 ∨ 57 < c ∧ c < 97) : c ∉ addrText a := by
  intro hmem
  have hdigit := mem_addrText hmem
  simp only [UInt8.le_iff_toNat_le, UInt8.lt_iff_toNat_lt] at h hdigit
  simp only [UInt8.reduceToNat] at h hdigit
  omega

theorem length_addrText (a : UInt64) : 8 ≤ (addrText a).length := by
  unfold addrText
  rw [List.length_leftpad]
  exact Nat.le_max_left _ _

theorem addrText_front (a : UInt64) : ∃ x y rest, addrText a = x :: y :: rest := by
  have hlen := length_addrText a
  match h : addrText a with
  | [] | [_] => simp [h] at hlen
  | x :: y :: rest => exact ⟨x, y, rest, rfl⟩

namespace Line

theorem colon_notMem_range (l : Line) : 58 ∉ l.range := by
  have hstart : 58 ∉ addrText l.start := notMem_addrText (by decide)
  have hstop : 58 ∉ addrText l.stop := notMem_addrText (by decide)
  simp [range, List.mem_replicate, hstart, hstop]

theorem newline_notMem_text (l : Line) : 10 ∉ l.text := by
  have hstart : 10 ∉ addrText l.start := notMem_addrText (by decide)
  have hstop : 10 ∉ addrText l.stop := notMem_addrText (by decide)
  simp [text, range, List.mem_replicate, hstart, hstop, l.name.newline_notMem]

theorem text_ne_nil (l : Line) : l.text ≠ [] := by simp [text]

/-! ## What the script takes from a line -/

theorem cut_range (l : Line) : cut 58 1 l.text = l.range := cut_first l.colon_notMem_range _

theorem cut_name (l : Line) : cut 58 2 l.text = 32 :: l.name.text.takeWhile (· ≠ 58) := by
  unfold text
  rw [cut_second l.colon_notMem_range]
  rfl

theorem cut_start (l : Line) :
    cut 45 1 l.range = List.replicate (2 * l.depth) 32 ++ addrText l.start := by
  refine cut_first ?_ _
  have hstart : 45 ∉ addrText l.start := notMem_addrText (by decide)
  simp [List.mem_replicate, hstart]

/-- The last address is found behind the dash, with the blanks that follow it. -/
theorem cut_stop (l : Line) (indent blanks : Nat) :
    cut 45 2 ((List.replicate indent 32 ++ addrText l.start) ++
      45 :: (addrText l.stop ++ List.replicate blanks 32)) =
      addrText l.stop ++ List.replicate blanks 32 := by
  have hstart : 45 ∉ addrText l.start := notMem_addrText (by decide)
  have hstop : 45 ∉ addrText l.stop := notMem_addrText (by decide)
  rw [cut_second (by simp [List.mem_replicate, hstart])]
  exact takeWhile_of_notMem (by simp [List.mem_replicate, hstop])

end Line

theorem decValue_addrText (a : UInt64) (blanks : Nat) :
    decValue (addrText a ++ List.replicate blanks 32) = Int64.ofNat a.toNat := by
  unfold decValue addrText
  rw [arith16_hexadecimal]
  rfl

theorem rangeSize_range (l : Line) : rangeSize l.range = l.size := by
  have hltrim : ltrim (List.replicate (2 * l.depth) 32 ++ addrText l.start) = addrText l.start := by
    obtain ⟨x, y, rest, hfront⟩ := addrText_front l.start
    have hx : x ≠ 32 := by
      intro h
      subst h
      exact notMem_addrText (a := l.start) (c := 32) (by decide) (by simp [hfront])
    rw [ltrim_replicate, hfront, ltrim_of_head hx]
  have hstart := decValue_addrText l.start 0
  have hstop : decValue (cut 45 2 l.range) = Int64.ofNat l.stop.toNat :=
    (congrArg decValue (l.cut_stop (2 * l.depth) 1)).trans (decValue_addrText l.stop 1)
  rw [List.replicate_zero, List.append_nil] at hstart
  rw [rangeSize, l.cut_start, hltrim, hstart, hstop]
  rfl

/-! ## The words of the file -/

theorem expand_text (inBracket : List UInt8 → UInt8 → Bool) (l : Line) :
    expand inBracket scriptDir l.text = [l.text] := by
  -- its first two bytes are blanks or digits, and no file has such a second one
  have hfront : ∃ a b rest, l.text = a :: b :: rest ∧
      (a = 32 ∨ a ∈ addrText l.start) ∧ (b = 32 ∨ b ∈ addrText l.start) := by
    cases hdepth : l.depth with
    | zero =>
        obtain ⟨x, y, rest, hxy⟩ := addrText_front l.start
        exact ⟨x, y, _, by simp [Line.text, Line.range, hdepth, hxy]; rfl, by simp [hxy],
          by simp [hxy]⟩
    | succ d =>
        exact ⟨32, 32, _, by simp [Line.text, Line.range, hdepth, Nat.mul_add,
          List.replicate_succ]; rfl, .inl rfl, .inl rfl⟩
  obtain ⟨a, b, rest, htext, ha, hb⟩ := hfront
  have hplain : ∀ c, (c = 32 ∨ c ∈ addrText l.start) → Plain c := by
    intro c hc
    have hother : ∀ x : UInt8, x ≠ 32 → (x < 48 ∨ 57 < x ∧ x < 97) → c ≠ x := by
      intro x hx hrange h
      subst h
      rcases hc with rfl | hc
      · exact hx rfl
      · exact notMem_addrText hrange hc
    exact ⟨hother 42 (by decide) (by decide), hother 63 (by decide) (by decide),
      hother 91 (by decide) (by decide), hother 92 (by decide) (by decide)⟩
  have hsecond : ∀ x : UInt8, x ≠ 32 → 102 < x → b ≠ x := by
    intro x hx hlarge h
    subst h
    rcases hb with rfl | hb
    · exact hx rfl
    · rcases mem_addrText hb with ⟨-, hle⟩ | ⟨-, hle⟩
      · exact absurd (UInt8.lt_of_lt_of_le hlarge hle) (by decide)
      · exact absurd (UInt8.lt_of_lt_of_le hlarge hle) (by simp)
  rw [htext]
  apply expand_eq_self inBracket (hplain a ha) (hplain b hb)
  intro file hfile hprefix
  have hfiles : ∀ file ∈ scriptDir, file[1]? = some 111 ∨ file[1]? = some 114 ∨
      file[1]? = some 104 := by decide
  obtain ⟨t, rfl⟩ := hprefix
  rcases hfiles _ hfile with h | h | h
  · exact hsecond 111 (by decide) (by decide) (by simpa using h)
  · exact hsecond 114 (by decide) (by decide) (by simpa using h)
  · exact hsecond 104 (by decide) (by decide) (by simpa using h)

theorem unquoted_text (inBracket : List UInt8 → UInt8 → Bool) (l : Line) :
    unquoted inBracket l.text = [l.text] := by
  unfold unquoted
  rw [words_of_notMem l.newline_notMem_text l.text_ne_nil]
  simp [expand_text]

theorem unquoted_printed (inBracket : List UInt8 → UInt8 → Bool) (lines : List Line) :
    unquoted inBracket (printed lines) = lines.map Line.text := by
  have hwords : words (printed lines) = lines.map Line.text := by
    apply words_unlines
    intro text htext
    obtain ⟨l, -, rfl⟩ := List.mem_map.mp htext
    exact ⟨l.newline_notMem_text, l.text_ne_nil⟩
  unfold unquoted
  rw [hwords, List.flatMap_map]
  simp [expand_text, ← List.map_eq_flatMap]

end KernelTrg.Iomem
