import KernelTrg.MmapSimple.Range

/-!
# The labels of the lines

A label is formatted with six digits at least and printed up to its sixth digit. Six
digits and a NUL are also what `temp` has room for, so that the labels are right as long
as the last line starts below offset 1000000.
-/

namespace KernelTrg.MmapSimple

open Bytes Shell

def offsetLabel (n : Nat) : List UInt8 := 43 :: (decimal n).leftpad 6 48

/-- What is printed in front of the first blank of a line. -/
def printedLabel (line : List UInt8) : List UInt8 := line.takeWhile (· ≠ 32)

/-- The lines of a dump from the offset `off` on are labelled with the offset of their first
byte, and each label has fitted in the 8 bytes of `temp`. -/
structure Labelled (d : Dump) (off : Nat) (lines : List (List UInt8)) : Prop where
  out : d.out = ruler ++ unlines lines
  noNewline : ∀ l ∈ lines, 10 ∉ l
  label : ∀ k (hk : k < lines.length), printedLabel lines[k] = offsetLabel (off + 16 * k)
  distinct : (lines.map printedLabel).Nodup
  fits : ∀ text ∈ d.labels, text.length + 1 ≤ 8

variable {file : List UInt8} {addr : Nat} {off len : Int64} {offset : Int32} {m n : Nat}

/-! ## The text of a label -/

theorem label_eq {i : Int32} (h : i.toInt = n) : label i = offsetLabel n := by
  have hpos : ¬(i.toInt < 0) := by omega
  unfold label
  rw [if_neg hpos, h, Int.natAbs_natCast, offsetLabel]

theorem length_offsetLabel (n : Nat) : (offsetLabel n).length = max 6 (decimalWidth n) + 1 := by
  unfold offsetLabel
  rw [List.length_cons, List.length_leftpad, length_decimal]

theorem offsetLabel_fits_iff : (offsetLabel n).length + 1 ≤ 8 ↔ n < 10 ^ 6 := by
  rw [length_offsetLabel, ← decimalWidth_le_iff (by decide)]
  omega

theorem take_offsetLabel (h : n < 10 ^ 6) : (offsetLabel n).take 7 = offsetLabel n := by
  have hfits := offsetLabel_fits_iff.mpr h
  exact List.take_of_length_le (by omega)

theorem offsetLabel_injective : Function.Injective offsetLabel := by
  intro m n h
  have htext : (decimal m).leftpad 6 48 = (decimal n).leftpad 6 48 := List.tail_eq_of_cons_eq h
  rw [← decimalValue_leftpad m 6, htext, decimalValue_leftpad]

theorem blank_notMem_label (i : Int32) : 32 ∉ label i :=
  fun h => absurd (mem_label h).1 (by decide)

theorem printedLabel_lineText (k : Nat) (cur : List UInt8) :
    printedLabel (lineText (lineLabel offset k) cur) = lineLabel offset k := by
  have hblank : 32 ∉ lineLabel offset k :=
    fun hmem => blank_notMem_label _ (List.mem_of_mem_take hmem)
  unfold printedLabel lineText
  rw [List.append_assoc, List.append_assoc, List.append_assoc,
    takeWhile_append_of_notMem hblank]
  simp

/-! ## The labels of a range -/

theorem range_inside (h : check (Int64.ofNat file.length) off len = none)
    (hsum : off.toInt + len.toInt < 2 ^ 31) : off.toInt + len.toInt ≤ file.length := by
  have hfits := (check_eq_none h).2.2 (by omega)
  have hle : (Int64.ofNat file.length).toInt ≤ file.length := by
    have hbmod := Int.bmod_def (file.length : Int) Int64.size
    rw [← Int64.ofInt_eq_ofNat, Int64.toInt_ofInt]
    simp only [Int64.size] at hbmod ⊢
    split at hbmod <;> omega
  omega

theorem label_position (h : check (Int64.ofNat file.length) off len = none)
    (hsum : off.toInt + len.toInt < 2 ^ 31) (hm : 16 * m < len.toInt.toNat) :
    label (Int32.ofNat (16 * m) + off.toInt32) = offsetLabel (off.toInt.toNat + 16 * m) := by
  obtain ⟨hlen, hoff, -⟩ := check_eq_none h
  have hoff32 : off.toInt32.toInt = off.toInt := (toInt32_eq_iff hoff).mpr (by omega)
  apply label_eq
  rw [toInt_position (by omega) (by omega), hoff32]
  omega

theorem labelled_of_lt (h : check (Int64.ofNat file.length) off len = none)
    (hsum : off.toInt + len.toInt < 2 ^ 31)
    (hlast : off.toInt + 16 * ((len.toInt - 1) / 16) < 10 ^ 6) :
    ∃ d lines, mmapSimple file addr off len = .ok (some d) ∧
      Labelled d off.toInt.toNat lines := by
  obtain ⟨hlen, hoff, -⟩ := check_eq_none h
  obtain ⟨hlength, -⟩ := mapped_range hoff hlen.le (range_inside h hsum)
  obtain ⟨d, hd, hdump⟩ : ∃ d, mmapSimple file addr off len = .ok (some d) ∧
      Dumps off.toInt32 [] ((file.drop off.toInt.toNat).take len.toInt.toNat) d := by
    rcases mmapSimple_cases addr h (by omega) (by omega) (range_inside h hsum) with
      ⟨-, hd⟩ | ⟨hle, -⟩
    · exact hd
    · omega
  have hlabels := hdump.labels
  generalize hbytes : (file.drop off.toInt.toNat).take len.toInt.toNat = bytes at *
  have hcount : (dataLines off.toInt32 bytes).length = (len.toInt.toNat + 15) / 16 := by
    unfold dataLines
    rw [List.length_map, List.length_range, hlength]
  have hprinted : ∀ k (hk : k < (dataLines off.toInt32 bytes).length),
      printedLabel (dataLines off.toInt32 bytes)[k] = offsetLabel (off.toInt.toNat + 16 * k) := by
    intro k hk
    rw [hcount] at hk
    simp only [dataLines, List.getElem_map, List.getElem_range]
    rw [printedLabel_lineText, lineLabel, label_position h hsum (by omega),
      take_offsetLabel (by omega)]
  refine ⟨d, dataLines off.toInt32 bytes, hd, ?_⟩
  constructor
  case out => exact hdump.out
  case noNewline => exact (dataLines_shows off.toInt32 bytes).noNewline
  case label => exact hprinted
  case distinct =>
    rw [List.nodup_iff_injective_getElem]
    intro i j hij
    have hi : i.val < (dataLines off.toInt32 bytes).length := by simpa using i.isLt
    have hj : j.val < (dataLines off.toInt32 bytes).length := by simpa using j.isLt
    simp only [List.getElem_map, hprinted _ hi, hprinted _ hj] at hij
    have hoffset := offsetLabel_injective hij
    exact Fin.ext (by omega)
  case fits =>
    intro text htext
    rw [hlabels, List.mem_map] at htext
    obtain ⟨m, hm, rfl⟩ := htext
    have hlt := List.mem_range.mp hm
    rw [label_position h hsum (by omega)]
    exact offsetLabel_fits_iff.mpr (by omega)

/-- There is no room for the label of the last line where the line starts too far behind. -/
theorem not_labelled_of_le (h : check (Int64.ofNat file.length) off len = none)
    (hsum : off.toInt + len.toInt < 2 ^ 31)
    (hlast : 10 ^ 6 ≤ off.toInt + 16 * ((len.toInt - 1) / 16)) :
    ¬∃ d lines, mmapSimple file addr off len = .ok (some d) ∧
      Labelled d off.toInt.toNat lines := by
  intro hlabelled
  rcases hlabelled with ⟨d, lines, hd, -⟩
  obtain ⟨hlen, hoff, -⟩ := check_eq_none h
  rcases mmapSimple_cases addr h (by omega) (by omega) (range_inside h hsum) with
    ⟨hlt, -⟩ | ⟨-, hnone⟩
  · omega
  · rw [hnone] at hd
    cases hd

/-- The labels are right, different from each other and within `temp` exactly where the last
line starts below offset 1000000. -/
theorem mmapSimple_labelled_iff (h : check (Int64.ofNat file.length) off len = none)
    (hsum : off.toInt + len.toInt < 2 ^ 31) :
    (∃ d lines, mmapSimple file addr off len = .ok (some d) ∧ Labelled d off.toInt.toNat lines) ↔
      off.toInt + 16 * ((len.toInt - 1) / 16) < 10 ^ 6 := by
  constructor
  · intro hlabelled
    by_contra hlast
    exact not_labelled_of_le h hsum (by omega) hlabelled
  · exact labelled_of_lt h hsum

/-- The last two bytes of a file of four. -/
theorem mmapSimple_labelled_four :
    ∃ d lines, mmapSimple [9, 8, 7, 6] 8192 2 2 = .ok (some d) ∧ Labelled d 2 lines :=
  (mmapSimple_labelled_iff (by decide) (by decide)).mpr (by decide)

/-- The last byte of a file of 1000001 bytes is at an offset of seven digits. -/
theorem mmapSimple_seven_digits :
    check (Int64.ofNat (List.replicate 1000001 (0 : UInt8)).length) 1000000 1 = none ∧
      ¬∃ d lines, mmapSimple (List.replicate 1000001 0) 8192 1000000 1 = .ok (some d) ∧
        Labelled d 1000000 lines := by
  have haccepted : check (Int64.ofNat (List.replicate 1000001 (0 : UInt8)).length) 1000000 1 =
      none := by
    rw [List.length_replicate]
    decide
  exact ⟨haccepted, not_labelled_of_le haccepted (by decide) (by decide)⟩

end KernelTrg.MmapSimple
