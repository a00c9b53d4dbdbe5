import KernelTrg.MmapSimple.HexDump
import KernelTrg.Lib.Shell

/-!
# The lines of the dump

The line buffer is blanked up to its newline before a line is filled, and filled from the
left in both columns at once. It is printed when it is full, one turn late, and at the end.
-/

namespace KernelTrg.MmapSimple

open Bytes Shell

/-! ## A line -/

/-- The hex fields of the bytes on a line, each with the blank behind it. -/
def hexColumns (cur : List UInt8) : List UInt8 :=
  cur.flatMap (fun b => hexByte b ++ [32]) ++ List.replicate (48 - 3 * cur.length) 32

def asciiColumns (cur : List UInt8) : List UInt8 :=
  cur.map shown ++ List.replicate (16 - cur.length) 32

def lineText (lbl cur : List UInt8) : List UInt8 :=
  lbl ++ [32] ++ hexColumns cur ++ [32, 32] ++ asciiColumns cur

/-- The label of the line that starts with byte number `16 * k`, as far as it is printed. -/
def lineLabel (offset : Int32) (k : Nat) : List UInt8 :=
  (label (Int32.ofNat (16 * k) + offset)).take 7

def chunk (bytes : List UInt8) (k : Nat) : List UInt8 := (bytes.drop (16 * k)).take 16

def dataLines (offset : Int32) (bytes : List UInt8) : List (List UInt8) :=
  (List.range ((bytes.length + 15) / 16)).map fun k => lineText (lineLabel offset k) (chunk bytes k)

/-- The byte that the two digits at column `8 + 3 * j` of a line stand for, if they are any. -/
def hexField (line : List UInt8) (j : Nat) : Option UInt8 :=
  (hexValue ((line.drop (8 + 3 * j)).take 2)).map UInt8.ofNat

def hexFields (line : List UInt8) : List UInt8 := (List.range 16).filterMap (hexField line)

variable {data : Nat → Option UInt8} {bytes lbl cur : List UInt8} {b c : UInt8} {offset : Int32}

theorem length_label (n : Int32) : 7 ≤ (label n).length := by
  unfold label
  split
  · simp only [List.length_cons, List.length_leftpad]
    omega
  · simp only [List.length_cons, List.length_leftpad]
    omega

@[simp] theorem length_lineLabel (offset : Int32) (k : Nat) : (lineLabel offset k).length = 7 := by
  unfold lineLabel
  rw [List.length_take]
  have hlen := length_label (Int32.ofNat (16 * k) + offset)
  omega

@[simp] theorem length_hexByte (b : UInt8) : (hexByte b).length = 2 := rfl

theorem length_hexFields (cur : List UInt8) :
    (cur.flatMap fun b => hexByte b ++ [32]).length = 3 * cur.length := by
  induction cur with
  | nil => rfl
  | cons b cur ih =>
      rw [List.flatMap_cons, List.length_append, ih]
      simp only [List.length_append, length_hexByte, List.length_cons, List.length_nil]
      omega

theorem length_hexColumns (h : cur.length ≤ 16) : (hexColumns cur).length = 48 := by
  unfold hexColumns
  rw [List.length_append, length_hexFields, List.length_replicate]
  omega

theorem length_asciiColumns (h : cur.length ≤ 16) : (asciiColumns cur).length = 16 := by
  unfold asciiColumns
  rw [List.length_append, List.length_map, List.length_replicate]
  omega

theorem length_lineText (hlbl : lbl.length = 7) (h : cur.length ≤ 16) :
    (lineText lbl cur).length = 74 := by
  rw [lineText]
  simp only [List.length_append, hlbl, length_hexColumns h, length_asciiColumns h,
    List.length_cons, List.length_nil]

theorem length_chunk (bytes : List UInt8) (k : Nat) : (chunk bytes k).length ≤ 16 := by
  unfold chunk
  rw [List.length_take]
  omega

/-- The label and the hex fields of a line that are filled. -/
def filled (lbl cur : List UInt8) : List UInt8 :=
  lbl ++ [32] ++ cur.flatMap fun b => hexByte b ++ [32]

theorem length_filled (hlbl : lbl.length = 7) (cur : List UInt8) :
    (filled lbl cur).length = 8 + 3 * cur.length := by
  simp only [filled, List.length_append, length_hexFields, hlbl, List.length_singleton]

theorem lineText_eq (lbl cur : List UInt8) :
    lineText lbl cur = filled lbl cur ++
      (List.replicate (48 - 3 * cur.length) 32 ++ ([32, 32] ++ asciiColumns cur)) := by
  unfold lineText hexColumns filled
  simp only [List.append_assoc]

theorem filled_split (lbl : List UInt8) {j : Nat} (h : j < cur.length) :
    filled lbl cur = filled lbl (cur.take j) ++
      (hexByte cur[j] ++ 32 :: (cur.drop (j + 1)).flatMap fun b => hexByte b ++ [32]) := by
  have hsplit : cur = cur.take j ++ cur[j] :: cur.drop (j + 1) := by
    rw [List.cons_getElem_drop_succ, List.take_append_drop]
  rw [filled, filled]
  nth_rewrite 1 [hsplit]
  simp only [List.flatMap_append, List.flatMap_cons, List.append_assoc, List.cons_append,
    List.nil_append]

/-! ## The bytes of a line -/

theorem mem_label {n : Int32} (h : c ∈ label n) : 43 ≤ c ∧ c ≤ 57 := by
  have hpad : ∀ width m, c ∈ (decimal m).leftpad width 48 → 43 ≤ c ∧ c ≤ 57 := by
    intro width m hmem
    rcases mem_leftpad hmem with rfl | hmem
    · decide
    · have hdigit := mem_decimal hmem
      exact ⟨UInt8.le_trans (by decide) hdigit.1, hdigit.2⟩
  unfold label at h
  rw [List.mem_cons] at h
  rcases h with rfl | h
  · decide
  · split at h
    · rw [List.mem_cons] at h
      rcases h with rfl | h
      · decide
      · exact hpad _ _ h
    · exact hpad _ _ h

theorem mem_hexByte (h : c ∈ hexByte b) : 48 ≤ c ∧ c ≤ 57 ∨ 97 ≤ c ∧ c ≤ 102 := by
  have hb : b.toNat < 256 := b.toNat_lt
  rw [hexByte, List.mem_cons, List.mem_singleton] at h
  rcases h with rfl | rfl
  · exact hexDigit_lower (by omega)
  · exact hexDigit_lower (Nat.mod_lt _ (by decide))

theorem shown_printable (b : UInt8) : 32 ≤ shown b ∧ shown b ≤ 126 := by
  unfold shown
  split
  · next h =>
    simp only [UInt8.le_iff_toNat_le, UInt8.lt_iff_toNat_lt, UInt8.reduceToNat] at h ⊢
    omega
  · decide

theorem mem_lineText {k : Nat} (h : c ∈ lineText (lineLabel offset k) cur) : 32 ≤ c ∧ c ≤ 126 := by
  have hblank : ∀ m, c ∈ List.replicate m (32 : UInt8) → 32 ≤ c ∧ c ≤ 126 := by
    intro m hmem
    rw [List.eq_of_mem_replicate hmem]
    decide
  have hhex : ∀ b : UInt8, c ∈ hexByte b ++ [32] → 32 ≤ c ∧ c ≤ 126 := by
    intro b hmem
    rw [List.mem_append] at hmem
    rcases hmem with hmem | hmem
    · rcases mem_hexByte hmem with ⟨hlo, hhi⟩ | ⟨hlo, hhi⟩
      · exact ⟨UInt8.le_trans (by decide) hlo, UInt8.le_trans hhi (by decide)⟩
      · exact ⟨UInt8.le_trans (by decide) hlo, UInt8.le_trans hhi (by decide)⟩
    · exact hblank 1 hmem
  rw [lineText, List.mem_append, List.mem_append, List.mem_append, List.mem_append] at h
  rcases h with (((h | h) | h) | h) | h
  · have hlabel := mem_label (List.mem_of_mem_take h)
    exact ⟨UInt8.le_trans (by decide) hlabel.1, UInt8.le_trans hlabel.2 (by decide)⟩
  · exact hblank 1 h
  · rw [hexColumns, List.mem_append, List.mem_flatMap] at h
    rcases h with ⟨b, -, hb⟩ | h
    · exact hhex b hb
    · exact hblank _ h
  · exact hblank 2 h
  · rw [asciiColumns, List.mem_append, List.mem_map] at h
    rcases h with ⟨b, -, rfl⟩ | h
    · exact shown_printable b
    · exact hblank _ h

theorem newline_notMem_lineText (k : Nat) : 10 ∉ lineText (lineLabel offset k) cur :=
  fun h => absurd (mem_lineText h).1 (by decide)

theorem nul_notMem_lineText (k : Nat) : 0 ∉ lineText (lineLabel offset k) cur :=
  fun h => absurd (mem_lineText h).1 (by decide)

/-! ## Filling a line -/

/-- What follows a line in the buffer: its newline, the NUL of the string, and bytes that are
never written again. -/
def afterLine : List UInt8 := 10 :: 0 :: List.replicate 52 0

theorem lineText_nil (lbl : List UInt8) : lineText lbl [] = lbl ++ List.replicate 67 32 := by
  simp only [lineText, List.append_assoc]
  rfl

theorem blankLine_append {line : List UInt8} (h : line.length = 74) (rest : List UInt8) :
    blankLine (line ++ rest) = List.replicate 74 32 ++ rest := by
  unfold blankLine
  rw [store_zero, List.length_replicate, show asciiColumn + 16 = line.length from h.symm,
    List.drop_left, h]

theorem store_label (hlbl : lbl.length = 7) (rest : List UInt8) :
    store 0 (List.replicate 74 32 ++ rest) 0 lbl = lineText lbl [] ++ rest := by
  rw [store_zero, hlbl, lineText_nil, List.append_assoc]
  rfl

theorem hexColumns_append (h : cur.length < 16) :
    hexColumns (cur ++ [b]) = (cur.flatMap fun b => hexByte b ++ [32]) ++ hexByte b ++
      32 :: List.replicate (45 - 3 * cur.length) 32 := by
  unfold hexColumns
  rw [List.flatMap_append, List.length_append, List.length_singleton,
    show 48 - 3 * (cur.length + 1) = 45 - 3 * cur.length by omega]
  simp only [List.flatMap_cons, List.flatMap_nil, List.append_nil, List.append_assoc,
    List.singleton_append]

theorem asciiColumns_append :
    asciiColumns (cur ++ [b]) =
      cur.map shown ++ shown b :: List.replicate (15 - cur.length) 32 := by
  unfold asciiColumns
  rw [List.map_append, List.length_append, List.length_singleton,
    show 16 - (cur.length + 1) = 15 - cur.length by omega]
  simp only [List.map_cons, List.map_nil, List.append_assoc, List.singleton_append]

theorem store_cell (hlbl : lbl.length = 7) (h : cur.length < 16) (rest : List UInt8) :
    store 0 (store 0 (lineText lbl cur ++ rest) (8 + cur.length * 3) (hexByte b))
      (asciiColumn + cur.length) [shown b] = lineText lbl (cur ++ [b]) ++ rest := by
  have hhex : (filled lbl cur).length = 8 + cur.length * 3 := by
    rw [length_filled hlbl, Nat.mul_comm]
  have htext : (lbl ++ [32] ++ hexColumns (cur ++ [b]) ++ [32, 32] ++ cur.map shown).length =
      asciiColumn + cur.length := by
    have hlen : (cur ++ [b]).length ≤ 16 := by
      rw [List.length_append, List.length_singleton]
      omega
    simp only [List.length_append, length_hexColumns hlen, hlbl, List.length_map,
      List.length_cons, List.length_nil]
  have hblanks : List.replicate (48 - 3 * cur.length) (32 : UInt8) =
      32 :: 32 :: 32 :: List.replicate (45 - 3 * cur.length) 32 := by
    rw [show 48 - 3 * cur.length = 45 - 3 * cur.length + 3 by omega]
    rfl
  have hspaces : List.replicate (16 - cur.length) (32 : UInt8) =
      32 :: List.replicate (15 - cur.length) 32 := by
    rw [show 16 - cur.length = 15 - cur.length + 1 by omega]
    rfl
  -- the two blanks of the hex field, then the one of the character
  have hline : lineText lbl cur ++ rest = filled lbl cur ++
      32 :: 32 :: (32 :: List.replicate (45 - 3 * cur.length) 32 ++ [32, 32] ++
        asciiColumns cur ++ rest) := by
    rw [lineText_eq, hblanks]
    simp only [List.append_assoc, List.cons_append, List.nil_append]
  have hmid : filled lbl cur ++ hexByte b ++
        (32 :: List.replicate (45 - 3 * cur.length) 32 ++ [32, 32] ++ asciiColumns cur ++ rest) =
      (lbl ++ [32] ++ hexColumns (cur ++ [b]) ++ [32, 32] ++ cur.map shown) ++
        32 :: (List.replicate (15 - cur.length) 32 ++ rest) := by
    rw [hexColumns_append h, asciiColumns, hspaces, filled]
    simp only [List.append_assoc, List.cons_append, List.nil_append]
  rw [hline, ← hhex, store_append, length_hexByte, List.drop_succ_cons, List.drop_succ_cons,
    List.drop_zero, hmid, ← htext, store_append, List.length_singleton, List.drop_succ_cons,
    List.drop_zero, lineText, asciiColumns_append]
  simp only [List.append_assoc, List.cons_append, List.nil_append]

/-! ## Reading a line -/

theorem hexValue_hexByte (b : UInt8) : hexValue (hexByte b) = some b.toNat := by
  have hb : b.toNat < 256 := b.toNat_lt
  have hhigh := hexDigitValue_hexDigit (d := b.toNat / 16) (by omega)
  have hlow := hexDigitValue_hexDigit (d := b.toNat % 16) (Nat.mod_lt _ (by decide))
  have hsplit : 16 * (b.toNat / 16) + b.toNat % 16 = b.toNat := Nat.div_add_mod _ _
  simp only [hexValue, hexByte, List.foldlM_cons, List.foldlM_nil, hhigh, hlow, Option.map_some,
    Option.bind_eq_bind, Option.bind_some, Option.pure_def, Nat.mul_zero, Nat.zero_add, hsplit]

theorem hexField_of_lt (hlbl : lbl.length = 7) {j : Nat} (h : j < cur.length) :
    hexField (lineText lbl cur) j = some cur[j] := by
  have hfront : 8 + 3 * j = (filled lbl (cur.take j)).length := by
    rw [length_filled hlbl, List.length_take, Nat.min_eq_left h.le]
  have htake : ((lineText lbl cur).drop (8 + 3 * j)).take 2 = hexByte cur[j] := by
    rw [lineText_eq, filled_split lbl h, List.append_assoc, List.append_assoc, hfront,
      List.drop_left]
    rfl
  unfold hexField
  rw [htake, hexValue_hexByte, Option.map_some, UInt8.ofNat_toNat]

theorem hexField_of_le (hlbl : lbl.length = 7) {j : Nat} (h : cur.length ≤ j) (hj : j < 16) :
    hexField (lineText lbl cur) j = none := by
  have hfront : 8 + 3 * j = (filled lbl cur).length + 3 * (j - cur.length) := by
    rw [length_filled hlbl]
    omega
  have hblanks : (List.replicate (48 - 3 * cur.length) (32 : UInt8)).drop (3 * (j - cur.length)) =
      32 :: 32 :: List.replicate (46 - 3 * j) 32 := by
    rw [List.drop_replicate,
      show 48 - 3 * cur.length - 3 * (j - cur.length) = 46 - 3 * j + 2 by omega]
    rfl
  have htake : ((lineText lbl cur).drop (8 + 3 * j)).take 2 = [32, 32] := by
    rw [lineText_eq, hfront, ← List.drop_drop, List.drop_left, List.drop_append_of_le_length,
      hblanks]
    · rfl
    · rw [List.length_replicate]
      omega
  unfold hexField
  rw [htake]
  rfl

/-- A hex field is read back where the line has a byte, and is no number where it has none. -/
theorem hexField_lineText (hlbl : lbl.length = 7) {j : Nat} (hj : j < 16) :
    hexField (lineText lbl cur) j = cur[j]? := by
  by_cases h : j < cur.length
  · rw [hexField_of_lt hlbl h, List.getElem?_eq_getElem h]
  · rw [hexField_of_le hlbl (by omega) hj, List.getElem?_eq_none (by omega)]

theorem filterMap_getElem? (l : List UInt8) (n : Nat) :
    (List.range n).filterMap (fun j => l[j]?) = l.take n := by
  induction n with
  | zero => rfl
  | succ n ih =>
      rw [List.range_succ, List.filterMap_append, ih, List.take_add_one, List.filterMap_cons]
      cases l[n]? <;> rfl

theorem hexFields_lineText (hlbl : lbl.length = 7) (hcur : cur.length ≤ 16) :
    hexFields (lineText lbl cur) = cur := by
  have hfield : ∀ j ∈ List.range 16, hexField (lineText lbl cur) j = cur[j]? := by
    intro j hj
    exact hexField_lineText hlbl (List.mem_range.mp hj)
  unfold hexFields
  rw [List.filterMap_congr hfield, filterMap_getElem?, List.take_of_length_le hcur]

theorem ascii_lineText (hlbl : lbl.length = 7) (hcur : cur.length ≤ 16) {j : Nat}
    (hj : j < cur.length) : (lineText lbl cur)[asciiColumn + j]? = some (shown cur[j]) := by
  have hfront : (lbl ++ [32] ++ hexColumns cur ++ [32, 32]).length = asciiColumn := by
    simp only [List.length_append, length_hexColumns hcur, hlbl, List.length_cons, List.length_nil]
  unfold lineText
  rw [List.getElem?_append_right (by omega), hfront, Nat.add_sub_cancel_left,
    asciiColumns, List.getElem?_append_left (by simpa using hj), List.getElem?_map,
    List.getElem?_eq_getElem hj]
  rfl

theorem shown_eq (b : UInt8) : shown b = if 32 ≤ b ∧ b ≤ 126 then b else 46 := by
  have hrange : (31 < b ∧ b < 127) ↔ 32 ≤ b ∧ b ≤ 126 := by
    simp only [UInt8.le_iff_toNat_le, UInt8.lt_iff_toNat_lt, UInt8.reduceToNat]
    omega
  rw [shown]
  simp only [hrange]

/-! ## Chunks -/

theorem chunk_append {done rest : List UInt8} {k : Nat} (h : 16 * k + 16 ≤ done.length) :
    chunk (done ++ rest) k = chunk done k := by
  unfold chunk
  rw [List.drop_append_of_le_length (by omega), List.take_append_of_le_length]
  rw [List.length_drop]
  omega

theorem chunk_append_singleton {done : List UInt8} {k : Nat} (hlow : 16 * k ≤ done.length)
    (hhigh : done.length < 16 * k + 16) : chunk (done ++ [b]) k = chunk done k ++ [b] := by
  unfold chunk
  rw [List.drop_append_of_le_length hlow,
    List.take_of_length_le (by simp; omega), List.take_of_length_le (by simp; omega)]

theorem flatMap_chunk (bytes : List UInt8) (m : Nat) :
    (List.range m).flatMap (chunk bytes) = bytes.take (16 * m) := by
  induction m with
  | zero => rfl
  | succ m ih =>
      rw [List.range_succ, List.flatMap_append, ih, Nat.mul_succ, List.take_add]
      simp [chunk]

theorem chunk_getElem? {k j : Nat} (hj : j < 16) : (chunk bytes k)[j]? = bytes[16 * k + j]? := by
  unfold chunk
  rw [List.getElem?_take_of_lt hj, List.getElem?_drop]

/-! ## The loop -/

/-- The state after the bytes `done`, of which line `k` has its part in the buffer. -/
structure Filling (offset : Int32) (front : List UInt8) (k : Nat) (done : List UInt8)
    (st : Dump) : Prop where
  index : 16 * k + st.j = done.length
  fits : st.j ≤ 16
  buffer : st.buffer = lineText (lineLabel offset k) (chunk done k) ++ afterLine
  out : st.out = front ++ unlines
    ((List.range k).map fun m => lineText (lineLabel offset m) (chunk done m))
  labels : st.labels = (List.range (k + 1)).map fun m => label (Int32.ofNat (16 * m) + offset)
  room : ∀ m ≤ k, HasRoom (Int32.ofNat (16 * m) + offset)
  dumped : st.dumped = done

variable {front done : List UInt8} {k : Nat} {st : Dump}

theorem Filling.length_chunk (h : Filling offset front k done st) :
    (chunk done k).length = st.j := by
  have hindex := h.index
  have hfits := h.fits
  unfold chunk
  rw [List.length_take, List.length_drop]
  omega

/-- All 128 bytes of the buffer are there, and no more: a store behind its end would have made
it longer. -/
theorem Filling.length_buffer (h : Filling offset front k done st) : st.buffer.length = 128 := by
  rw [h.buffer, List.length_append, length_lineText (length_lineLabel offset k) (by
    rw [h.length_chunk]
    exact h.fits)]
  rfl

theorem Filling.cstring_buffer (h : Filling offset front k done st) :
    cstring st.buffer = lineText (lineLabel offset k) (chunk done k) ++ [10] := by
  have hnul : 0 ∉ lineText (lineLabel offset k) (chunk done k) ++ [10] := by
    rw [List.mem_append, not_or]
    exact ⟨nul_notMem_lineText k, by decide⟩
  rw [h.buffer, show lineText (lineLabel offset k) (chunk done k) ++ afterLine =
    (lineText (lineLabel offset k) (chunk done k) ++ [10]) ++ 0 :: List.replicate 52 0 by
      rw [List.append_assoc]; rfl]
  exact cstring_append_nul hnul _

theorem filling_start (hroom : HasRoom offset) (out : List UInt8) :
    Filling offset (out ++ ruler) 0 [] (Dump.start (label offset) out) := by
  have hzero : Int32.ofNat (16 * 0) + offset = offset := Int32.zero_add offset
  constructor
  case index => rfl
  case fits => exact Nat.zero_le _
  case buffer =>
    have hblank : store 0 (blankLine (List.replicate 128 0)) (asciiColumn + 16) [10, 0] =
        List.replicate 74 32 ++ afterLine := by
      have hlength : (List.replicate 74 (32 : UInt8)).length = asciiColumn + 16 :=
        List.length_replicate
      rw [show List.replicate 128 (0 : UInt8) = List.replicate 74 0 ++ List.replicate 54 0 by
          rw [List.replicate_append_replicate],
        blankLine_append List.length_replicate, ← hlength, store_append, List.append_assoc]
      rfl
    have hlabel : (label offset).take 7 = lineLabel offset 0 := by rw [lineLabel, hzero]
    unfold Dump.start
    rw [hblank, hlabel, store_label (length_lineLabel offset 0)]
    rfl
  case out =>
    unfold Dump.start
    rw [List.range_zero, List.map_nil, unlines, List.flatMap_nil, List.append_nil]
  case labels =>
    rw [Nat.zero_add, List.range_one, List.map_singleton, hzero]
    rfl
  case room =>
    intro m hm
    rw [Nat.le_zero.mp hm, hzero]
    exact hroom
  case dumped => rfl

theorem Filling.newLine (h : Filling offset front k done st) (hfull : st.j = 16)
    (hroom : HasRoom (Int32.ofNat done.length + offset)) :
    Filling offset front (k + 1) done (st.newLine (label (Int32.ofNat done.length + offset))) := by
  have hindex := h.index
  have hlength : done.length = 16 * (k + 1) := by omega
  have hline : (lineText (lineLabel offset k) (chunk done k)).length = 74 :=
    length_lineText (length_lineLabel offset k) (MmapSimple.length_chunk done k)
  have hlabel : (label (Int32.ofNat done.length + offset)).take 7 = lineLabel offset (k + 1) := by
    rw [hlength, lineLabel]
  have hempty : chunk done (k + 1) = [] := by
    unfold chunk
    rw [List.drop_eq_nil_of_le (by omega), List.take_nil]
  constructor
  case index =>
    rw [hlength]
    rfl
  case fits => exact Nat.zero_le _
  case buffer =>
    unfold Dump.newLine
    rw [h.buffer, blankLine_append hline, hlabel,
      store_label (length_lineLabel offset (k + 1)), hempty]
  case out =>
    unfold Dump.newLine
    rw [h.out, h.cstring_buffer, List.range_succ, List.map_append, List.map_singleton,
      unlines_append, List.append_assoc]
  case labels =>
    unfold Dump.newLine
    rw [h.labels, List.range_succ (n := k + 1), List.map_append, List.map_singleton,
      hlength]
  case room =>
    intro m hm
    rcases Nat.le_succ_iff.mp hm with hm | rfl
    · exact h.room m hm
    · rwa [hlength] at hroom
  case dumped => exact h.dumped

theorem Filling.put (h : Filling offset front k done st) (hroom : st.j < 16) (b : UInt8) :
    Filling offset front k (done ++ [b]) (st.put b) := by
  have hindex := h.index
  have hcell : chunk (done ++ [b]) k = chunk done k ++ [b] :=
    chunk_append_singleton (by omega) (by omega)
  constructor
  case index =>
    rw [List.length_append, List.length_singleton, ← hindex]
    rfl
  case fits => exact hroom
  case buffer =>
    unfold Dump.put
    rw [h.buffer, hcell, ← h.length_chunk]
    exact store_cell (length_lineLabel offset k) (by rw [h.length_chunk]; exact hroom) afterLine
  case out =>
    have hmap : ((List.range k).map fun m =>
          lineText (lineLabel offset m) (chunk (done ++ [b]) m)) =
        (List.range k).map fun m => lineText (lineLabel offset m) (chunk done m) := by
      apply List.map_congr_left
      intro m hm
      have hlt := List.mem_range.mp hm
      rw [chunk_append (by omega)]
    unfold Dump.put
    rw [h.out, hmap]
  case labels => exact h.labels
  case room => exact h.room
  case dumped =>
    rw [← h.dumped]
    rfl

/-- A turn of the loop: afterwards the line has a byte, unless there was no room for its label. -/
theorem Filling.step (h : Filling offset front k done st) (hb : data done.length = some b) :
    (∃ k' st', hexDumpStep data offset st done.length = some st' ∧
        Filling offset front k' (done ++ [b]) st' ∧ st'.j ≠ 0) ∨
      hexDumpStep data offset st done.length = none ∧
        ∃ m, 16 * m = done.length ∧ ¬HasRoom (Int32.ofNat (16 * m) + offset) := by
  have hfits := h.fits
  have hindex := h.index
  unfold hexDumpStep formatLabel
  rw [hb]
  by_cases hfull : st.j = 16
  · by_cases hroom : HasRoom (Int32.ofNat done.length + offset)
    · refine .inl ⟨k + 1, _, ?_, (h.newLine hfull hroom).put (Nat.succ_pos 15) b,
        Nat.succ_ne_zero _⟩
      simp [hfull, hroom]
    · refine .inr ⟨by simp [hfull, hroom], k + 1, by omega, ?_⟩
      rwa [show 16 * (k + 1) = done.length by omega]
  · refine .inl ⟨k, _, ?_, h.put (by omega) b, Nat.succ_ne_zero _⟩
    simp [hfull]

theorem Filling.loop (bytes : List UInt8)
    (hdata : ∀ i (hi : i < bytes.length), data i = some bytes[i])
    (h : Filling offset front 0 [] st) :
    (∃ k st', (List.range bytes.length).foldlM (hexDumpStep data offset) st = some st' ∧
        Filling offset front k bytes st' ∧ (bytes = [] ∨ st'.j ≠ 0)) ∨
      (List.range bytes.length).foldlM (hexDumpStep data offset) st = none ∧
        ∃ m, 16 * m < bytes.length ∧ ¬HasRoom (Int32.ofNat (16 * m) + offset) := by
  induction bytes using List.reverseRecOn with
  | nil => exact .inl ⟨0, st, rfl, h, .inl rfl⟩
  | append_singleton bytes b ih =>
      have hlast : data bytes.length = some b := by simpa using hdata bytes.length (by simp)
      have hfront := ih fun i hi => by
        have hi' := hdata i (by simp; omega)
        rwa [List.getElem_append_left hi] at hi'
      rw [List.length_append, List.length_singleton, List.range_succ, List.foldlM_append]
      rcases hfront with ⟨k, mid, hmid, hfill, -⟩ | ⟨hmid, m, hm, hroom⟩
      · rw [hmid]
        rcases hfill.step hlast with ⟨k', st', hst', hput, hj⟩ | ⟨hst', m, hm, hroom⟩
        · exact .inl ⟨k', st', by simpa using hst', hput, .inr hj⟩
        · exact .inr ⟨by simpa using hst', m, by omega, hroom⟩
      · rw [hmid]
        exact .inr ⟨rfl, m, by omega, hroom⟩

theorem Filling.finish (h : Filling offset front k bytes st) (hj : bytes = [] ∨ st.j ≠ 0) :
    st.finish.out = front ++ unlines (dataLines offset bytes) := by
  have hindex := h.index
  have hfits := h.fits
  unfold Dump.finish dataLines
  split
  · next hne =>
    have hcount : (bytes.length + 15) / 16 = k + 1 := by omega
    rw [hcount, List.range_succ, List.map_append, List.map_singleton, unlines_append,
      h.out, h.cstring_buffer, List.append_assoc]
  · next heq =>
    have hzero : st.j = 0 := not_not.mp heq
    have hnil : bytes = [] := hj.resolve_right (not_not.mpr hzero)
    subst hnil
    have hk : k = 0 := by
      rw [List.length_nil] at hindex
      omega
    rw [h.out, hk]
    rfl

theorem Dump.buffer_finish (st : Dump) : st.finish.buffer = st.buffer := by
  unfold finish
  split <;> rfl

theorem Dump.labels_finish (st : Dump) : st.finish.labels = st.labels := by
  unfold finish
  split <;> rfl

theorem Dump.dumped_finish (st : Dump) : st.finish.dumped = st.dumped := by
  unfold finish
  split <;> rfl

/-! ## Room for the labels -/

/-- The first and the last line of `n` bytes have labels of at most six digits, of five behind a
minus sign. -/
def LabelsFit (offset : Int32) (n : Nat) : Prop :=
  -100000 < offset.toInt ∧ offset.toInt + 16 * ((n - 1) / 16 : Nat) < 1000000

theorem hasRoom_iff {n : Int32} : HasRoom n ↔ -100000 < n.toInt ∧ n.toInt < 1000000 := by
  have hfive := decimalWidth_le_iff (n := n.toInt.natAbs) (k := 5) (by decide)
  have hsix := decimalWidth_le_iff (n := n.toInt.natAbs) (k := 6) (by decide)
  unfold HasRoom label
  split
  · simp only [List.length_cons, List.length_leftpad, length_decimal]
    omega
  · simp only [List.length_cons, List.length_leftpad, length_decimal]
    omega

theorem toInt_position {m : Nat} (hm : 16 * m < 2 ^ 31) (hlt : offset.toInt + 16 * m < 2 ^ 31) :
    (Int32.ofNat (16 * m) + offset).toInt = offset.toInt + 16 * m := by
  have hline : (Int32.ofNat (16 * m)).toInt = (16 * m : Nat) := Int32.toInt_ofNat_of_lt hm
  have hlow := Int32.le_toInt offset
  rw [toInt_add_of_fits (by omega) (by omega)]
  omega

/-- Positions do not wrap around before a label has seven digits. -/
theorem rooms_iff (offset : Int32) (n : Nat) :
    (∀ m ≤ (n - 1) / 16, HasRoom (Int32.ofNat (16 * m) + offset)) ↔ LabelsFit offset n := by
  constructor
  · intro h
    have hfirst := hasRoom_iff.mp (h 0 (Nat.zero_le _))
    rw [show Int32.ofNat (16 * 0) + offset = offset from Int32.zero_add offset] at hfirst
    have hall : ∀ m ≤ (n - 1) / 16, offset.toInt + 16 * m < 1000000 := by
      intro m
      induction m with
      | zero => omega
      | succ m ih =>
          intro hm
          have hbefore := ih (by omega)
          have hroom := hasRoom_iff.mp (h (m + 1) hm)
          rw [toInt_position (by omega) (by omega)] at hroom
          exact hroom.2
    exact ⟨hfirst.1, hall _ le_rfl⟩
  · intro h m hm
    rcases h with ⟨hlow, hhigh⟩
    rw [hasRoom_iff, toInt_position (by omega) (by omega)]
    omega

/-- What `hex_dump` leaves behind a heading when it has dumped some bytes. -/
structure Dumps (offset : Int32) (front bytes : List UInt8) (d : Dump) : Prop where
  out : d.out = front ++ ruler ++ unlines (dataLines offset bytes)
  labels : d.labels = (List.range ((bytes.length - 1) / 16 + 1)).map
    fun m => label (Int32.ofNat (16 * m) + offset)
  buffer : d.buffer.length = 128
  dumped : d.dumped = bytes

theorem Filling.last (h : Filling offset front k bytes st) (hj : bytes = [] ∨ st.j ≠ 0) :
    (bytes.length - 1) / 16 = k := by
  have hindex := h.index
  have hfits := h.fits
  rcases hj with rfl | hj
  · rw [List.length_nil] at hindex ⊢
    omega
  · omega

/-- The dump of some bytes comes to its end exactly where all labels fit. -/
theorem hexDump_cases (addr : Nat) (offset size : Int32) (caption : Option (List UInt8))
    (verbose : Bool) (hsize : size.toInt = bytes.length)
    (hdata : ∀ i (hi : i < bytes.length), data i = some bytes[i]) :
    (LabelsFit offset bytes.length ∧ ∃ d, hexDump data addr offset size caption verbose = some d ∧
        Dumps offset (heading caption verbose size addr) bytes d) ∨
      ¬LabelsFit offset bytes.length ∧ hexDump data addr offset size caption verbose = none := by
  unfold hexDump formatLabel
  rw [hsize, Int.toNat_natCast, ← rooms_iff]
  by_cases hroom : HasRoom offset
  · rw [if_pos hroom]
    rcases (filling_start hroom (heading caption verbose size addr)).loop bytes hdata with
      ⟨k, st', hloop, hfill, hj⟩ | ⟨hloop, m, hm, hm'⟩
    · refine .inl ⟨?_, st'.finish, by simp [hloop], hfill.finish hj, ?_, ?_, ?_⟩
      · rw [hfill.last hj]
        exact hfill.room
      · rw [Dump.labels_finish, hfill.labels, hfill.last hj]
      · rw [Dump.buffer_finish, hfill.length_buffer]
      · rw [Dump.dumped_finish, hfill.dumped]
    · exact .inr ⟨fun h => hm' (h m (by omega)), by simp [hloop]⟩
  · refine .inr ⟨fun h => hroom ?_, by simp [hroom]⟩
    have hfirst := h 0 (Nat.zero_le _)
    rwa [show Int32.ofNat (16 * 0) + offset = offset from Int32.zero_add offset] at hfirst

/-! ## Nothing is lost -/

/-- The lines of a dump that show the bytes, each in one place in hexadecimal and in one as text. -/
structure Shows (lines : List (List UInt8)) (bytes : List UInt8) : Prop where
  count : lines.length = (bytes.length + 15) / 16
  noNewline : ∀ l ∈ lines, 10 ∉ l
  hex : lines.flatMap hexFields = bytes
  text : ∀ i (hi : i < bytes.length), ∃ l, lines[i / 16]? = some l ∧
    hexField l (i % 16) = some bytes[i] ∧
    l[asciiColumn + i % 16]? = some (if 32 ≤ bytes[i] ∧ bytes[i] ≤ 126 then bytes[i] else 46)

theorem dataLines_shows (offset : Int32) (bytes : List UInt8) :
    Shows (dataLines offset bytes) bytes := by
  constructor
  case count => rw [dataLines, List.length_map, List.length_range]
  case noNewline =>
    intro l hl
    obtain ⟨k, -, rfl⟩ := List.mem_map.mp hl
    exact newline_notMem_lineText k
  case hex =>
    have hline : ∀ k, hexFields (lineText (lineLabel offset k) (chunk bytes k)) = chunk bytes k :=
      fun k => hexFields_lineText (length_lineLabel offset k) (length_chunk bytes k)
    unfold dataLines
    rw [List.flatMap_map]
    simp only [hline]
    rw [flatMap_chunk, List.take_of_length_le (by omega)]
  case text =>
    intro i hi
    have hmod : i % 16 < 16 := Nat.mod_lt _ (by decide)
    have hget : (chunk bytes (i / 16))[i % 16]? = some bytes[i] := by
      rw [chunk_getElem? hmod, Nat.div_add_mod, List.getElem?_eq_getElem hi]
    obtain ⟨hlt, hcell⟩ := List.getElem?_eq_some_iff.mp hget
    refine ⟨lineText (lineLabel offset (i / 16)) (chunk bytes (i / 16)), ?_, ?_, ?_⟩
    · unfold dataLines
      rw [List.getElem?_map, List.getElem?_range (by omega)]
      rfl
    · rw [hexField_lineText (length_lineLabel offset _) hmod, hget]
    · rw [ascii_lineText (length_lineLabel offset _) (length_chunk bytes _) hlt, hcell, shown_eq]

/-- `hex_dump` prints its heading, the ruler, and then lines that show all bytes, and stays within
its buffer, which a store outside of it would have made longer: exactly where `temp` has room for
the labels of the first and the last line. -/
theorem hexDump_lossless_iff (addr : Nat) (offset size : Int32) (caption : Option (List UInt8))
    (verbose : Bool) (hsize : size.toInt = bytes.length)
    (hdata : ∀ i (hi : i < bytes.length), data i = some bytes[i]) :
    (∃ d lines, hexDump data addr offset size caption verbose = some d ∧
      d.out = heading caption verbose size addr ++ ruler ++ unlines lines ∧
      Shows lines bytes ∧ d.buffer.length = 128) ↔
      -100000 < offset.toInt ∧ offset.toInt + 16 * ((bytes.length - 1) / 16 : Nat) < 1000000 := by
  rcases hexDump_cases addr offset size caption verbose hsize hdata with
    ⟨hfit, d, hd, hdump⟩ | ⟨hfit, hnone⟩
  · exact iff_of_true ⟨d, dataLines offset bytes, hd, hdump.out, dataLines_shows offset bytes,
      hdump.buffer⟩ hfit
  · refine iff_of_false (fun h => ?_) hfit
    rcases h with ⟨d, -, hd, -⟩
    rw [hnone] at hd
    cases hd

/-- A text of three bytes and a NUL. -/
theorem hexDump_lossless_four :
    ∃ d lines, hexDump (fun i => [104, 105, 10, (0 : UInt8)][i]?) 0 0 4 none true = some d ∧
      d.out = ruler ++ unlines lines ∧ Shows lines [104, 105, 10, 0] ∧ d.buffer.length = 128 :=
  (hexDump_lossless_iff 0 0 4 none true (by decide)
    (fun i hi => List.getElem?_eq_getElem hi)).mpr (by decide)

/-- One byte with a label of seven digits. -/
theorem hexDump_seven_digits :
    ¬∃ d lines, hexDump (fun i => [(65 : UInt8)][i]?) 0 1000000 1 none false = some d ∧
      d.out = ruler ++ unlines lines ∧ Shows lines [65] ∧ d.buffer.length = 128 := by
  intro h
  rcases h with ⟨d, -, hd, -⟩
  have hroom : formatLabel 1000000 = none := if_neg fun h => absurd (hasRoom_iff.mp h).2 (by decide)
  rw [hexDump, hroom] at hd
  cases hd

end KernelTrg.MmapSimple
