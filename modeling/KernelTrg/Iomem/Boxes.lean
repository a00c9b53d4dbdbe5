import KernelTrg.Iomem.Script
import KernelTrg.Lib.LongDouble

/-!
# The boxes of the memory map

`graphit` draws a box for each record, with a height in proportion to the size of the
record. A box that is cut off at the largest height gets an ellipsis. The variable that
says so is set before the loop and reset after each record.
-/

namespace KernelTrg.Iomem

open Bytes Shell Decimals

/-- Two elements of the array: a label and a size. -/
structure Record where
  label : List UInt8
  size : Int64
deriving DecidableEq, Repr

/-! ## The script -/

abbrev scaleFactor : Int := 50

abbrev limitScaleSz : Int := 10

/-- `[ a -gt b ]`: a number that does not fit 64 bits is an error. -/
def testGt (a b : Int) : Bool := -2 ^ 63 ≤ a ∧ a < 2 ^ 63 ∧ b < a

/-- `scale=9; (sz/gTotalLen)*100*SCALE_FACTOR` for a total that is not 0. -/
def scaledSzFp (total sz : Int64) : Decimal :=
  Decimal.mul 9 (Decimal.mul 9 (Decimal.div 9 (.ofInt sz.toInt) (.ofInt total.toInt)) (.ofInt 100))
    (.ofInt scaleFactor)

/-- The height of a box, not yet limited: `LC_ALL=C printf "%.0f"`, which reads a long double. -/
def scaledSzInt (total sz : Int64) : Int :=
  if (scaledSzFp total sz).lt (.ofInt 1) then 1 else (scaledSzFp total sz).longDouble.roundEven

def clamped (total sz : Int64) : Bool := testGt (scaledSzInt total sz) limitScaleSz

/-- The turns of the loop over the sides of a box, whose bound is taken modulo 2^64. -/
def sideCount (total sz : Int64) : Nat :=
  (Int64.ofInt (if clamped total sz then limitScaleSz else scaledSzInt total sz)).toInt.toNat

/-- What `tput` and the debug message write, what a bracket expression of a pattern stands for,
and what `%d` makes of an argument. -/
structure Terminal where
  fgBlue : List UInt8
  colorReset : List UInt8
  decho : List UInt8 → List UInt8
  inBracket : List UInt8 → UInt8 → Bool
  percentD : List UInt8 → Int

inductive Item where
  | message (text : List UInt8)
  | color (code : List UInt8)
  | lin
  | title (text : List UInt8)
  | side
  | ellipse
deriving DecidableEq, Repr

def Item.text : Item → List UInt8
  | .message text | .color text | .title text => text
  | .lin => ascii "+------------------------------------+\n"
  | .side => ascii "|                                    |\n"
  | .ellipse => ascii "~ . . . . . . . . . . . . . . . . .  ~\n"

/-- `printf "|%-20s  [%d KB] \n"`, which starts over as long as arguments are left. -/
def titleText (percentD : List UInt8 → Int) : List (List UInt8) → List UInt8
  | [] => []
  | [label] => 124 :: label.rightpad 20 32 ++ ascii "  [0 KB] \n"
  | label :: szKB :: args =>
      124 :: label.rightpad 20 32 ++ ascii "  [" ++ signedDecimal (percentD szKB) ++
        ascii " KB] \n" ++ titleText percentD args

/-- The sides of a box, with the ellipsis at the middle of the largest height. -/
def sides (count : Nat) (oversized : Bool) : List Item :=
  (List.range count).flatMap fun x =>
    .side :: if oversized ∧ x = ((limitScaleSz - 1) / 2).toNat then [.ellipse] else []

/-- The variables that the loop of `graphit` carries from one record to the next. -/
structure Graph where
  oversized : Bool
  szMB : Int64
  szGB : Int64
deriving DecidableEq, Repr

def Graph.init : Graph := ⟨true, 0, 0⟩

def drawBox (t : Terminal) (total : Int64) (r : Record) (oversized : Bool) : List Item :=
  [.color t.fgBlue, .lin,
    .title (titleText t.percentD
      (unquoted t.inBracket r.label ++ [signedDecimal (r.size / 1024).toInt]))] ++
    sides (sideCount total r.size) oversized ++ [.color t.colorReset]

def graphitStep (t : Terminal) (total : Int64) (st : Graph) (r : Record) : List Item × Graph :=
  let szKB := r.size / 1024
  let szMB := if 1024 ≤ szKB then szKB / 1024 else st.szMB
  let szGB := if 1024 ≤ szMB then szMB / 1024 else st.szGB
  let oversized := if clamped total r.size then true else st.oversized
  (drawBox t total r oversized, ⟨false, szMB, szGB⟩)

def graphitLoop (t : Terminal) (total : Int64) : Graph → List Record → List Item
  | _, [] => []
  | st, r :: records =>
      let (items, st') := graphitStep t total st r
      items ++ graphitLoop t total st' records

def graphit (t : Terminal) (total : Int64) (records : List Record) : List Item :=
  .message (t.decho (ascii "len=" ++ signedDecimal total.toInt)) ::
    graphitLoop t total Graph.init records ++ [.lin]

/-! ## What a box should be -/

def box (t : Terminal) (total : Int64) (r : Record) : List Item :=
  drawBox t total r (clamped total r.size)

/-- Only the boxes of the records are drawn, one after the other, and the line below them. -/
structure BoxByBox (t : Terminal) (total : Int64) (records : List Record) : Prop where
  drawn : graphit t total records =
    .message (t.decho (ascii "len=" ++ signedDecimal total.toInt)) ::
      records.flatMap (box t total) ++ [.lin]
  ellipse : ∀ r ∈ records, .ellipse ∈ box t total r ↔ clamped total r.size = true

/-- The scaled height is above the limit, or too low for the ellipsis. A height that does not fit
64 bits is compared with nothing, and counts modulo 2^64. -/
def Neutral (total sz : Int64) : Prop :=
  limitScaleSz < scaledSzInt total sz ∧ scaledSzInt total sz < 2 ^ 63 ∨
    (Int64.ofInt (scaledSzInt total sz)).toInt < 5

variable {t : Terminal} {total sz : Int64} {r : Record} {records : List Record} {st : Graph}

theorem sideCount_clamped (h : clamped total sz = true) : sideCount total sz = 10 := by
  unfold sideCount
  rw [if_pos h]
  rfl

theorem neutral_iff : Neutral total sz ↔ clamped total sz = true ∨ sideCount total sz < 5 := by
  have hclamped : clamped total sz = true ↔
      limitScaleSz < scaledSzInt total sz ∧ scaledSzInt total sz < 2 ^ 63 := by
    have hlimit : limitScaleSz = 10 := rfl
    simp only [clamped, testGt, decide_eq_true_eq, hlimit]
    omega
  unfold Neutral sideCount
  by_cases h : clamped total sz = true
  · exact iff_of_true (.inl (hclamped.mp h)) (.inl h)
  · rw [← hclamped, if_neg h]
    simp only [h, Bool.false_eq_true, false_or]
    omega

theorem mem_sides {count : Nat} {oversized : Bool} :
    .ellipse ∈ sides count oversized ↔ oversized = true ∧ 5 ≤ count := by
  unfold sides
  rw [List.mem_flatMap]
  constructor
  · intro h
    rcases h with ⟨x, hx, hmem⟩
    rw [List.mem_range] at hx
    split at hmem
    · next h =>
      have hmiddle : x = 4 := h.2
      exact ⟨h.1, by omega⟩
    · simp at hmem
  · intro h
    rcases h with ⟨hover, hcount⟩
    refine ⟨4, List.mem_range.mpr (by omega), ?_⟩
    rw [if_pos ⟨hover, rfl⟩]
    simp

theorem sides_low {count : Nat} (h : count < 5) (oversized : Bool) :
    sides count oversized = sides count false := by
  have hside : ∀ x ∈ List.range count,
      (Item.side :: if oversized ∧ x = ((limitScaleSz - 1) / 2).toNat then [.ellipse] else []) =
        Item.side :: if false ∧ x = ((limitScaleSz - 1) / 2).toNat then [.ellipse] else [] := by
    intro x hx
    have hlt := List.mem_range.mp hx
    have hmiddle : x ≠ ((limitScaleSz - 1) / 2).toNat := by
      change x ≠ 4
      omega
    rw [if_neg (fun h => hmiddle h.2), if_neg (fun h => hmiddle h.2)]
  rw [sides, List.flatMap_congr hside]
  rfl

theorem mem_drawBox {oversized : Bool} :
    .ellipse ∈ drawBox t total r oversized ↔ oversized = true ∧ 5 ≤ sideCount total r.size := by
  unfold drawBox
  rw [List.mem_append, List.mem_append, mem_sides]
  simp

/-- A box has the ellipsis where its height is limited, which makes it high enough. -/
theorem mem_box : .ellipse ∈ box t total r ↔ clamped total r.size = true := by
  unfold box
  rw [mem_drawBox]
  constructor
  · exact fun h => h.1
  · intro h
    exact ⟨h, by rw [sideCount_clamped h]; decide⟩

/-! ## The loop -/

theorem graphitLoop_cons (t : Terminal) (total : Int64) (st : Graph) (r : Record)
    (records : List Record) :
    ∃ st' : Graph, st'.oversized = false ∧ graphitLoop t total st (r :: records) =
      drawBox t total r (clamped total r.size || st.oversized) ++
        graphitLoop t total st' records := by
  refine ⟨(graphitStep t total st r).2, rfl, ?_⟩
  rw [graphitLoop, graphitStep]
  cases clamped total r.size <;> rfl

theorem graphitLoop_reset (h : st.oversized = false) (records : List Record) :
    graphitLoop t total st records = records.flatMap (box t total) := by
  induction records generalizing st with
  | nil => rfl
  | cons r records ih =>
      obtain ⟨st', hst', hloop⟩ := graphitLoop_cons t total st r records
      rw [hloop, h, Bool.or_false, ih hst', List.flatMap_cons]
      rfl

/-- The first box is drawn as if its height was limited. -/
theorem graphit_cons (r : Record) (records : List Record) :
    graphit t total (r :: records) =
      .message (t.decho (ascii "len=" ++ signedDecimal total.toInt)) ::
        (drawBox t total r true ++ records.flatMap (box t total)) ++ [.lin] := by
  obtain ⟨st', hst', hloop⟩ := graphitLoop_cons t total Graph.init r records
  unfold graphit
  rw [hloop, graphitLoop_reset hst', show Graph.init.oversized = true from rfl,
    Bool.or_true]

/-- The drawing is that of the boxes exactly where the first record is as if its height was
limited. -/
theorem boxByBox_iff :
    BoxByBox t total records ↔
      ∀ r, records.head? = some r → Neutral total r.size := by
  simp only [neutral_iff]
  cases records with
  | nil =>
      simp only [List.head?_nil, reduceCtorEq, false_implies, implies_true, iff_true]
      exact ⟨rfl, by simp⟩
  | cons r records =>
      simp only [List.head?_cons, Option.some.injEq, forall_eq']
      constructor
      · intro h
        have hdrawn := h.drawn
        rw [graphit_cons, List.flatMap_cons, List.append_cancel_right_eq, List.cons_inj_right,
          List.append_cancel_right_eq] at hdrawn
        by_contra hnot
        rw [not_or, Nat.not_lt] at hnot
        have hmem : .ellipse ∈ box t total r := by
          rw [← hdrawn, mem_drawBox]
          exact ⟨rfl, hnot.2⟩
        exact hnot.1 (mem_box.mp hmem)
      · intro h
        constructor
        case ellipse => exact fun _ _ => mem_box
        case drawn =>
          have hbox : drawBox t total r true = box t total r := by
            rcases h with hclamped | hlow
            · unfold box
              rw [hclamped]
            · unfold box drawBox
              rw [sides_low hlow true, sides_low hlow (clamped total r.size)]
          rw [graphit_cons, hbox, List.flatMap_cons]

/-- A list is drawn box by box exactly where its first record leaves no trace of the variable that
is set before the loop, and in every order exactly where none of its records does. -/
theorem graphit_box_by_box (t : Terminal) (total : Int64) (records : List Record) :
    (BoxByBox t total records ↔ ∀ r, records.head? = some r → Neutral total r.size) ∧
    ((∀ order : List Record, order.Perm records → BoxByBox t total order) ↔
      ∀ r ∈ records, Neutral total r.size) := by
  refine ⟨boxByBox_iff, ?_, ?_⟩
  · intro h r hr
    have hperm : (r :: records.erase r).Perm records := (List.perm_cons_erase hr).symm
    exact boxByBox_iff.mp (h _ hperm) r rfl
  · intro h order hperm
    refine boxByBox_iff.mpr fun r hr => h r (hperm.subset ?_)
    exact List.mem_of_mem_head? hr

def plainTerminal : Terminal where
  fgBlue := []
  colorReset := []
  decho := fun text => text ++ [10]
  inBracket := fun _ _ => false
  percentD := fun text => decimalValue text

def sevenSides : Record := ⟨ascii "System RAM", 1400⟩

/-- It has an ellipsis as the first record and none as the second, although its height is not
limited. -/
theorem graphit_first_box :
    clamped 1000000 sevenSides.size = false ∧
      .ellipse ∈ graphit plainTerminal 1000000 [sevenSides] ∧
      ¬∃ box : Record → List Item, ∀ records, graphit plainTerminal 1000000 records =
        .message (ascii "len=1000000\n") :: records.flatMap box ++ [.lin] := by
  have hclamped : clamped 1000000 sevenSides.size = false := by decide
  have hfirst : .ellipse ∈ drawBox plainTerminal 1000000 sevenSides true :=
    mem_drawBox.mpr ⟨rfl, by decide⟩
  refine ⟨hclamped, ?_, ?_⟩
  · rw [graphit_cons]
    simp [hfirst]
  · intro hall
    rcases hall with ⟨place, h⟩
    have hone := h [sevenSides]
    have htwo := h [sevenSides, sevenSides]
    rw [graphit_cons] at hone htwo
    simp only [List.flatMap_cons, List.flatMap_nil, List.append_nil,
      List.append_cancel_right_eq, List.cons.injEq] at hone htwo
    rw [← hone.2, List.append_cancel_left_eq] at htwo
    rw [← htwo.2, mem_box, hclamped] at hfirst
    cases hfirst

end KernelTrg.Iomem
