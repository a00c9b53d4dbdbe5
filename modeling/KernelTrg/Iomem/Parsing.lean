import KernelTrg.Iomem.Format

/-!
# What the script records

Each line adds one pair to the array, so that `graphit` reads as many pairs as there are
lines, in their order. The size is the line's own; the label is its name up to a colon.
-/

namespace KernelTrg.Iomem

open Bytes Shell

variable {g : Globals} {pairs : List (List UInt8 × List UInt8)} {l : Line} {lines : List Line}
  {inBracket : List UInt8 → UInt8 → Bool}

structure Recorded (g : Globals) (pairs : List (List UInt8 × List UInt8)) : Prop where
  gRow : g.gRow = 2 * pairs.length
  read : graphitPairs g = pairs

def Line.record (l : Line) : List UInt8 × List UInt8 :=
  (32 :: l.name.text.takeWhile (· ≠ 58), signedDecimal l.size.toInt)

theorem interpretIomemRec_text (g : Globals) (l : Line) :
    interpretIomemRec g [l.text] =
      { g with
        gArray := Function.update (Function.update g.gArray g.gRow l.record.1) (g.gRow + 1)
          l.record.2
        gRow := g.gRow + 2
        numspc := (List.replicate (2 * l.depth) 32 ++ addrText l.start).count 32 } := by
  simp only [interpretIomemRec, List.intercalate_singleton, l.cut_range, l.cut_name, l.cut_start,
    rangeSize_range, Line.record]

theorem Recorded.interpret (h : Recorded g pairs) (l : Line) :
    Recorded (interpretIomemRec g [l.text]) (pairs ++ [l.record]) := by
  have hrow := h.gRow
  rw [interpretIomemRec_text]
  refine ⟨by simp only [List.length_append, List.length_singleton]; omega, ?_⟩
  have hcount : (g.gRow + 2 + 1) / 2 = pairs.length + 1 := by omega
  have hold : (g.gRow + 1) / 2 = pairs.length := by omega
  have hread := h.read
  simp only [graphitPairs, hold] at hread
  simp only [graphitPairs, hcount, List.range_succ, List.map_append, List.map_singleton]
  congr 1
  · refine Eq.trans (List.map_congr_left fun n hn => ?_) hread
    have hlt : n < pairs.length := List.mem_range.mp hn
    have h₁ : 2 * n ≠ g.gRow := by omega
    have h₂ : 2 * n ≠ g.gRow + 1 := by omega
    have h₃ : 2 * n + 1 ≠ g.gRow := by omega
    have h₄ : 2 * n + 1 ≠ g.gRow + 1 := by omega
    simp only [Function.update_of_ne, ne_eq, h₁, h₂, h₃, h₄, not_false_eq_true]
  · have hne : g.gRow ≠ g.gRow + 1 := by omega
    rw [← hrow, Function.update_of_ne hne, Function.update_self, Function.update_self]

theorem Recorded.foldl (h : Recorded g pairs) (inBracket : List UInt8 → UInt8 → Bool)
    (lines : List Line) :
    Recorded ((lines.map Line.text).foldl
      (fun g line => interpretIomemRec g (unquoted inBracket line)) g)
      (pairs ++ lines.map Line.record) := by
  induction lines generalizing g pairs with
  | nil => simpa using h
  | cons l lines ih =>
      have hrest := ih (h.interpret l)
      simpa [unquoted_text] using hrest

theorem start_recorded (inBracket : List UInt8 → UInt8 → Bool) (lines : List Line) :
    Recorded (start inBracket (printed lines)) (lines.map Line.record) := by
  have hempty : Recorded (getRangeInfo Globals.init (printed lines)) [] :=
    ⟨rfl, by simp [graphitPairs, getRangeInfo, Globals.init]⟩
  have hall := hempty.foldl inBracket lines
  unfold start
  rw [unquoted_printed]
  exact hall

/-- The label is the name, blanks aside, exactly where the name has no colon. -/
theorem Line.trim_record_iff (l : Line) :
    trim l.record.1 = trim l.name.text ↔ 58 ∉ l.name.text := by
  rw [record, trim_cons_blank]
  constructor
  · intro heq hmem
    have hlabel : 58 ∈ trim (l.name.text.takeWhile (· ≠ 58)) := by
      rw [heq]
      exact (mem_trim (by decide)).mpr hmem
    exact notMem_takeWhile ((mem_trim (by decide)).mp hlabel)
  · intro hnone
    rw [takeWhile_of_notMem hnone]

/-- The array gives every line back, with its whole name and a size from its own addresses,
exactly where no name has a colon. -/
theorem start_reads_back_iff (inBracket : List UInt8 → UInt8 → Bool) (lines : List Line)
    (hbound : ∀ l ∈ lines, l.start.toNat < 2 ^ 63 ∧ l.stop.toNat < 2 ^ 63) :
    ((start inBracket (printed lines)).gRow = 2 * lines.length ∧
      (graphitPairs (start inBracket (printed lines))).map (fun p => (trim p.1, p.2)) =
        lines.map fun l =>
          (trim l.name.text, signedDecimal ((l.stop.toNat : Int) - l.start.toNat))) ↔
      ∀ l ∈ lines, 58 ∉ l.name.text := by
  have hrecorded := start_recorded inBracket lines
  have hrow : (start inBracket (printed lines)).gRow = 2 * lines.length := by
    rw [hrecorded.gRow, List.length_map]
  rw [hrecorded.read, List.map_map, List.map_inj_left]
  constructor
  · intro h
    rcases h with ⟨-, hpairs⟩
    intro l hl
    exact l.trim_record_iff.mp (Prod.mk.inj (hpairs l hl)).1
  · intro hnone
    refine ⟨hrow, fun l hl => ?_⟩
    have hsize := Line.toInt_size (hbound l hl).1 (hbound l hl).2
    apply Prod.ext (l.trim_record_iff.mpr (hnone l hl))
    simp only [Function.comp_apply, Line.record, hsize]

def ramName : Name := ⟨ascii "System RAM", by decide, by decide⟩

def busName : Name := ⟨ascii "PCI Bus 0000:00", by decide, by decide⟩

/-- A region and one within it. -/
theorem start_reads_back_ram :
    (start (fun _ _ => false) (printed
      [⟨0, 0x1000, 0x57fff, ramName⟩, ⟨1, 0x2000, 0x2fff, ramName⟩])).gRow = 4 ∧
    (graphitPairs (start (fun _ _ => false) (printed
      [⟨0, 0x1000, 0x57fff, ramName⟩, ⟨1, 0x2000, 0x2fff, ramName⟩]))).map
        (fun p => (trim p.1, p.2)) =
      [(ascii "System RAM", ascii "356351"), (ascii "System RAM", ascii "4095")] := by
  have hback := (start_reads_back_iff (fun _ _ => false)
    [⟨0, 0x1000, 0x57fff, ramName⟩, ⟨1, 0x2000, 0x2fff, ramName⟩] (by decide)).mpr (by decide)
  exact ⟨hback.1, hback.2.trans (by decide)⟩

/-- The name of a PCI bus is cut off at its colon. -/
theorem start_cuts_bus :
    (graphitPairs (start (fun _ _ => false) (printed [⟨0, 0xa0000, 0xbffff, busName⟩]))).map
        (fun p => trim p.1) = [ascii "PCI Bus 0000"] ∧
      ascii "PCI Bus 0000" ≠ trim busName.text := by
  rw [(start_recorded _ _).read]
  decide

end KernelTrg.Iomem
