import KernelTrg.Iomem.Span
import KernelTrg.Iomem.Heights
import Mathlib.Algebra.Order.Ring.Abs

/-!
# From the resources to the drawing

The whole script, from the tree of resources as the kernel prints it to the boxes on the
terminal: a box for each resource in the order of the file, with its name, its size and a height
that goes by its share of the map.
-/

namespace KernelTrg.Iomem

open Bytes Shell Decimals

/-! ## The script -/

/-- `gHDR`, with `EMB` and `PHYADDR_HEX` set to 1. -/
def gHDR : List UInt8 :=
  ascii "                            /proc/iomem  ::  PHYSICAL ADDRESS SPACE" ++
    ascii "        [embedded ver]\n" ++
    ascii "      Region                                   Phy Addr" ++ ascii " [hex]" ++
    ascii "                   Size\n" ++
    ascii "                                         start       -       end   :       KB" ++
    ascii "     MB     GB\n"

/-- The number that an element of the array is for `bc` and for `$((..))`. -/
def sizeValue : List UInt8 → Int64
  | 45 :: digits => .ofInt (-decimalValue digits)
  | digits => .ofInt (decimalValue digits)

def Globals.records (g : Globals) : List Record :=
  (graphitPairs g).map fun p => ⟨p.1, sizeValue p.2⟩

/-- The script for the text of `/proc/iomem`, with a total that is not 0. -/
def phymapIomem (t : Terminal) (text : List UInt8) : List Item :=
  let g := start t.inBracket text
  .message gHDR :: graphit t g.gTotalLen g.records

/-! ## The picture of a map -/

def Line.extent (l : Line) : Nat := l.stop.toNat - l.start.toNat

/-- The name as far as it has no colon, and the size. -/
def Line.title (l : Line) : List UInt8 :=
  124 :: (32 :: l.name.text.takeWhile (· ≠ 58)).rightpad 20 32 ++ ascii "  [" ++
    decimal (l.extent / 1024) ++ ascii " KB] \n"

def Line.box (t : Terminal) (l : Line) (height : Nat) (ellipse : Bool) : List Item :=
  [.color t.fgBlue, .lin, .title l.title] ++ sides height ellipse ++ [.color t.colorReset]

/-- How high the regions of a map of `span` bytes are, and which are cut off: larger regions are
not lower, and between the least height and the largest one the height is 5000 times the share of the
region, within one half and the hundred thousandth of another. -/
structure ToScale (span : Nat) (height : Nat → Nat) (cutOff : Nat → Bool) : Prop where
  pos : ∀ n ≤ span, 1 ≤ height n
  le : ∀ n ≤ span, height n ≤ 10
  mono : ∀ m n, m ≤ n → n ≤ span → height m ≤ height n
  near : ∀ n ≤ span, span ≤ 5000 * n → cutOff n = false →
    200000 * |(height n * span : Int) - 5000 * n| ≤ 100001 * span
  cutOff_iff : ∀ n ≤ span, cutOff n = true ↔ 2100001 * span ≤ 10 ^ 9 * n
  full : ∀ n ≤ span, cutOff n = true → height n = 10

variable {t : Terminal} {l first last : Line} {lines : List Line} {span n : Nat} {c : UInt8}

/-! ## What is read from the array -/

def Line.read (l : Line) : Record := ⟨l.record.1, l.size⟩

theorem sizeValue_decimal (n : Nat) : sizeValue (decimal n) = .ofInt n := by
  have hminus : 45 ∉ decimal n := fun h => absurd (mem_decimal h).1 (by decide)
  unfold sizeValue
  split
  · next digits heq => exact absurd (by rw [heq]; exact List.mem_cons_self) hminus
  · rw [decimalValue_decimal]

theorem signedDecimal_ofNat (n : Nat) : signedDecimal n = decimal n := by
  unfold signedDecimal
  rw [if_neg (by omega)]
  rfl

theorem sizeValue_signedDecimal (z : Int64) : sizeValue (signedDecimal z.toInt) = z := by
  unfold signedDecimal
  split
  · next hneg =>
    have habs : (-(z.toInt.natAbs : Int)) = z.toInt := by omega
    change Int64.ofInt (-(decimalValue (decimal z.toInt.natAbs) : Int)) = z
    rw [decimalValue_decimal, habs, Int64.ofInt_toInt]
  · next hpos =>
    have habs : ((z.toInt.natAbs : Nat) : Int) = z.toInt := by omega
    rw [sizeValue_decimal, habs, Int64.ofInt_toInt]

theorem records_printed (inBracket : List UInt8 → UInt8 → Bool) (lines : List Line) :
    (start inBracket (printed lines)).records = lines.map Line.read := by
  unfold Globals.records
  rw [(start_recorded inBracket lines).read, List.map_map]
  apply List.map_congr_left
  intro l _
  simp only [Function.comp_apply, Line.record, Line.read, sizeValue_signedDecimal]

/-! ## Heights within the map -/

/-- A height of 33 bits is rounded as if it was not read as a long double before. -/
theorem longDouble_roundEven {d : Int} (hone : 10 ^ 9 ≤ d) (hsmall : d < 2 ^ 33 * 10 ^ 9) :
    (⟨d, 9⟩ : Decimal).longDouble.roundEven = nearestEven d (10 ^ 9) := by
  have hroom : (10 : Int) ^ 9 * 2 ^ 33 < 2 ^ 64 := by decide
  exact Decimal.roundEven_longDouble (a := ⟨d, 9⟩) hone hsmall hroom

theorem quotient_le {total sz : Int64} (hpos : 0 < total.toInt) (hle : sz.toInt ≤ total.toInt) :
    quotient total sz ≤ 10 ^ 9 := by
  unfold quotient
  apply Int.ediv_le_of_le_mul hpos
  omega

section Heights

variable {total sz : Int64} (hpos : 0 < total.toInt) (hsz : 0 ≤ sz.toInt)

include hpos hsz

theorem scaledSzInt_within (hle : sz.toInt ≤ total.toInt) :
    scaledSzInt total sz = if quotient total sz * 5000 < 10 ^ 9 then 1
      else nearestEven (quotient total sz * 5000) (10 ^ 9) := by
  have hquotient := quotient_le hpos hle
  rw [scaledSzInt_eq hsz]
  split
  · rfl
  · exact longDouble_roundEven (by omega) (by omega)

theorem scaledSzInt_le (hle : sz.toInt ≤ total.toInt) : scaledSzInt total sz ≤ 5000 := by
  have hquotient := quotient_le hpos hle
  have hheight : nearestEven (quotient total sz * 5000) (10 ^ 9) ≤ 5000 :=
    nearestEven_le (by decide) (by omega)
  rw [scaledSzInt_within hpos hsz hle]
  split <;> omega

theorem clamped_iff_lt (hle : sz.toInt ≤ total.toInt) :
    clamped total sz = true ↔ 10 < scaledSzInt total sz := by
  have hsmall := scaledSzInt_le hpos hsz hle
  have hlimit : limitScaleSz = 10 := rfl
  simp only [clamped, testGt, decide_eq_true_eq, hlimit]
  omega

theorem clamped_iff (hle : sz.toInt ≤ total.toInt) :
    clamped total sz = true ↔ 2100001 * total.toInt ≤ 10 ^ 9 * sz.toInt := by
  have hbeyond : 10 < scaledSzInt total sz ↔ 2100001 ≤ quotient total sz := by
    have hround : 10 < nearestEven (quotient total sz * 5000) (10 ^ 9) ↔
        (2 * 10 + 1) * 10 ^ 9 < 2 * (quotient total sz * 5000) := lt_nearestEven_iff (by decide) rfl
    rw [scaledSzInt_within hpos hsz hle]
    split
    · omega
    · rw [hround]
      omega
  rw [clamped_iff_lt hpos hsz hle, hbeyond, quotient, Int.le_ediv_iff_mul_le hpos, mul_comm (10 ^ 9)]

/-- A height that is not limited goes by the share of the map. -/
theorem scaledSzInt_near (hlow : total.toInt ≤ 5000 * sz.toInt) (hle : sz.toInt ≤ total.toInt) :
    200000 * |scaledSzInt total sz * total.toInt - 5000 * sz.toInt| ≤ 100001 * total.toInt := by
  have hfloor : quotient total sz * total.toInt ≤ sz.toInt * 10 ^ 9 := Int.ediv_mul_le _ hpos.ne'
  have hceil : sz.toInt * 10 ^ 9 < (quotient total sz + 1) * total.toInt :=
    Int.lt_ediv_add_one_mul_self _ hpos
  have hone : 200000 ≤ quotient total sz := by
    rw [quotient, Int.le_ediv_iff_mul_le hpos]
    omega
  have hunit : (0 : Int) < 10 ^ 9 := by decide
  have hround := nearestEven_near (quotient total sz * 5000) hunit
  rw [scaledSzInt_within hpos hsz hle, if_neg (by omega)]
  generalize nearestEven (quotient total sz * 5000) (10 ^ 9) = height at hround ⊢
  generalize quotient total sz = q at hfloor hceil hround
  have hhalf : |height * 10 ^ 9 - q * 5000| ≤ 500000000 := by omega
  have hunits : |200000 * height - q| ≤ 100000 := by
    rw [abs_le] at hhalf ⊢
    omega
  have hrest : |q * total.toInt - sz.toInt * 10 ^ 9| ≤ total.toInt := by
    rw [add_mul, one_mul] at hceil
    rw [abs_le]
    omega
  have hparts : 200000 * (height * total.toInt - 5000 * sz.toInt) =
      (200000 * height - q) * total.toInt + (q * total.toInt - sz.toInt * 10 ^ 9) := by ring
  calc 200000 * |height * total.toInt - 5000 * sz.toInt|
      = |200000 * (height * total.toInt - 5000 * sz.toInt)| := by rw [abs_mul]; rfl
    _ ≤ |(200000 * height - q) * total.toInt| + |q * total.toInt - sz.toInt * 10 ^ 9| := by
        rw [hparts]
        exact abs_add_le _ _
    _ ≤ 100000 * total.toInt + total.toInt := by
        rw [abs_mul, abs_of_pos hpos]
        exact add_le_add (mul_le_mul_of_nonneg_right hunits hpos.le) hrest
    _ = 100001 * total.toInt := by ring

end Heights

theorem toScale (hpos : 0 < span) (hspan : span < 2 ^ 63) :
    ToScale span (fun n => sideCount (.ofNat span) (.ofNat n))
      (fun n => clamped (.ofNat span) (.ofNat n)) := by
  have htotal := Int64.toInt_ofNat_of_lt hspan
  have hposInt : 0 < (Int64.ofNat span).toInt := by omega
  have hsize : ∀ n ≤ span, (Int64.ofNat n).toInt = n := fun n hn => Int64.toInt_ofNat_of_lt (by omega)
  have hheight : ∀ n ≤ span, 1 ≤ scaledSzInt (.ofNat span) (.ofNat n) ∧
      (sideCount (.ofNat span) (.ofNat n) : Int) =
        min (scaledSzInt (.ofNat span) (.ofNat n)) 10 := by
    intro n hn
    have hn' := hsize n hn
    have hlow : 1 ≤ scaledSzInt (.ofNat span) (.ofNat n) := one_le_scaledSzInt _ (by omega)
    have hhigh : scaledSzInt (.ofNat span) (.ofNat n) ≤ 5000 :=
      scaledSzInt_le hposInt (by omega) (by omega)
    exact ⟨hlow, sideCount_eq hlow (by omega)⟩
  constructor
  case pos =>
    intro n hn
    have h := hheight n hn
    omega
  case le =>
    intro n hn
    have h := hheight n hn
    omega
  case mono =>
    intro m n hmn hn
    have hm := hsize m (by omega)
    have hn' := hsize n hn
    have hmono : scaledSzInt (.ofNat span) (.ofNat m) ≤ scaledSzInt (.ofNat span) (.ofNat n) :=
      scaledSzInt_mono hposInt (by omega) (by omega)
    have h₁ := hheight m (by omega)
    have h₂ := hheight n hn
    omega
  case near =>
    intro n hn hlow hcut
    have hn' := hsize n hn
    have hle : ¬10 < scaledSzInt (.ofNat span) (.ofNat n) := by
      rw [← clamped_iff_lt hposInt (by omega) (by omega), hcut]
      exact Bool.false_ne_true
    have h := hheight n hn
    have hcount : (sideCount (.ofNat span) (.ofNat n) : Int) =
        scaledSzInt (.ofNat span) (.ofNat n) := by omega
    rw [hcount, ← htotal, ← hn']
    exact scaledSzInt_near hposInt (by omega) (by omega) (by omega)
  case cutOff_iff =>
    intro n hn
    have hn' := hsize n hn
    rw [clamped_iff hposInt (by omega) (by omega), htotal, hn']
    omega
  case full =>
    intro n _ hcut
    exact sideCount_clamped hcut

/-! ## The box of a line -/

theorem Line.size_eq (hle : l.start.toNat ≤ l.stop.toNat) (hsmall : l.extent < 2 ^ 63) :
    l.size = .ofNat l.extent := by
  have hext : l.extent = l.stop.toNat - l.start.toNat := rfl
  apply Int64.toInt_inj.mp
  rw [Int64.toInt_ofNat_of_lt hsmall, Line.size, toInt_sub_eq (by omega) (by omega)]
  omega

theorem toInt_div_1024 (h : n < 2 ^ 63) : (Int64.ofNat n / 1024).toInt = (n / 1024 : Nat) := by
  change (Int64.ofNat n / .ofNat 1024).toInt = _
  rw [← Int64.ofNat_div h (by decide), Int64.toInt_ofNat_of_lt (by omega)]

theorem unquoted_label (inBracket : List UInt8 → UInt8 → Bool) (l : Line) :
    unquoted inBracket l.record.1 = [l.record.1] := by
  have hnewline : 10 ∉ l.record.1 := by
    intro h
    rcases List.mem_cons.mp h with h | h
    · cases h
    · exact l.name.newline_notMem ((List.takeWhile_prefix _).mem h)
  have hfiles : ∀ file ∈ scriptDir, file.head? ≠ some 32 := by decide
  unfold unquoted
  rw [words_of_notMem hnewline (List.cons_ne_nil _ _), List.flatMap_singleton]
  exact expand_of_head inBracket (by unfold Plain; decide) hfiles

theorem drawBox_line (ht : ∀ n : Nat, t.percentD (decimal n) = n) (total : Int64)
    (hle : l.start.toNat ≤ l.stop.toNat) (hsmall : l.extent < 2 ^ 63) (oversized : Bool) :
    drawBox t total l.read oversized =
      l.box t (sideCount total (.ofNat l.extent)) oversized := by
  have hKB : signedDecimal (l.size / 1024).toInt = decimal (l.extent / 1024) := by
    rw [Line.size_eq hle hsmall, toInt_div_1024 hsmall, signedDecimal_ofNat]
  have htitle : titleText t.percentD (unquoted t.inBracket l.record.1 ++
      [decimal (l.extent / 1024)]) = l.title := by
    rw [unquoted_label]
    change 124 :: _ ++ ascii "  [" ++ signedDecimal (t.percentD (decimal (l.extent / 1024))) ++
      ascii " KB] \n" ++ [] = l.title
    rw [ht, signedDecimal_ofNat, List.append_nil]
    rfl
  unfold drawBox Line.box Line.read
  simp only
  rw [hKB, htitle, Line.size_eq hle hsmall]

/-! ## The drawing -/

/-- What is on the terminal for the lines of a map of `span` bytes. No region is larger than the
map, and each has its box, in their order; the first box has an ellipsis, if it is high enough, also
where its height is not limited. -/
structure Drawn (t : Terminal) (span : Nat) (lines : List Line) (items : List Item) : Prop where
  within : ∀ l ∈ lines, l.extent ≤ span
  items_eq : ∃ height cutOff, ToScale span height cutOff ∧
    items = .message gHDR :: .message (t.decho (ascii "len=" ++ decimal span)) ::
      (lines.head?.toList.flatMap (fun l => l.box t (height l.extent) true) ++
        lines.tail.flatMap fun l => l.box t (height l.extent) (cutOff l.extent)) ++ [.lin]

theorem graphit_lines (ht : ∀ n : Nat, t.percentD (decimal n) = n) (hspan : span < 2 ^ 63)
    (hbounds : ∀ l ∈ lines, l.start.toNat ≤ l.stop.toNat ∧ l.extent ≤ span) (hne : lines ≠ []) :
    graphit t (.ofNat span) (lines.map Line.read) =
      .message (t.decho (ascii "len=" ++ decimal span)) ::
        (lines.head?.toList.flatMap (fun l =>
            l.box t (sideCount (.ofNat span) (.ofNat l.extent)) true) ++
          lines.tail.flatMap fun l => l.box t (sideCount (.ofNat span) (.ofNat l.extent))
            (clamped (.ofNat span) (.ofNat l.extent))) ++ [.lin] := by
  have hbox : ∀ l ∈ lines, ∀ oversized, drawBox t (.ofNat span) l.read oversized =
      l.box t (sideCount (.ofNat span) (.ofNat l.extent)) oversized := by
    intro l hl oversized
    have hb := hbounds l hl
    exact drawBox_line ht _ hb.1 (by omega) oversized
  cases lines with
  | nil => exact absurd rfl hne
  | cons first rest =>
      have hrest : (rest.map Line.read).flatMap (box t (.ofNat span)) =
          rest.flatMap fun l => l.box t (sideCount (.ofNat span) (.ofNat l.extent))
            (clamped (.ofNat span) (.ofNat l.extent)) := by
        rw [List.flatMap_map]
        apply List.flatMap_congr
        intro l hl
        have hb := hbounds l (List.mem_cons_of_mem _ hl)
        rw [box, hbox l (List.mem_cons_of_mem _ hl), Line.read, Line.size_eq hb.1 (by omega)]
      rw [List.map_cons, graphit_cons, hrest, hbox first List.mem_cons_self,
        Int64.toInt_ofNat_of_lt hspan, signedDecimal_ofNat, List.head?_cons, Option.toList_some,
        List.flatMap_singleton, List.tail_cons]

def fewPages : Resources :=
  .cons 0x1000 0x3fff ramName (.cons 0x1000 0x1fff busName .nil .nil)
    (.cons 0x40000 0x40fff ramName .nil .nil)

end KernelTrg.Iomem
