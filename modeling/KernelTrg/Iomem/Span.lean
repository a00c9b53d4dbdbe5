import KernelTrg.Iomem.Sizes
import Mathlib.Order.Bounds.Basic

/-!
# The span of the memory map

The kernel prints its tree of resources depth first. The script takes the first address of
the first line and the last address of the last one, which is that of the last resource of
the top level only where no resource in front of its end follows it in the print.
-/

namespace KernelTrg.Iomem

open Bytes Shell

/-- The resources of a level in the order of their addresses: one, those within it, and those
that follow it. -/
inductive Resources where
  | nil
  | cons (start stop : UInt64) (name : Name) (child sibling : Resources)
deriving DecidableEq, Repr

namespace Resources

/-- The lines that are printed, from nesting level `depth` on. -/
def lines (depth : Nat) : Resources → List Line
  | nil => []
  | cons start stop name child sibling =>
      ⟨depth, start, stop, name⟩ :: (child.lines (depth + 1) ++ sibling.lines depth)

/-- Each resource lies between the bounds and behind the one before it, and those within it
lie between its ends. -/
def WellFormed (lo hi : Nat) : Resources → Prop
  | nil => True
  | cons start stop _ child sibling =>
      lo ≤ start.toNat ∧ start.toNat ≤ stop.toNat ∧ stop.toNat ≤ hi ∧
        child.WellFormed start.toNat stop.toNat ∧ sibling.WellFormed (stop.toNat + 1) hi

instance WellFormed.decidable : ∀ (lo hi : Nat) (t : Resources), Decidable (t.WellFormed lo hi)
  | _, _, nil => isTrue trivial
  | _, hi, cons start stop _ child sibling =>
      have := WellFormed.decidable start.toNat stop.toNat child
      have := WellFormed.decidable (stop.toNat + 1) hi sibling
      inferInstanceAs (Decidable (_ ∧ _))

def topStop : Resources → Option UInt64
  | nil => none
  | cons _ stop _ _ nil => some stop
  | cons _ _ _ _ (cons start stop name child sibling) =>
      (cons start stop name child sibling).topStop

variable {t child sibling : Resources} {lo hi depth : Nat} {top : UInt64} {l : Line}

/-! ## The lines of a tree -/

theorem WellFormed.bounds (h : t.WellFormed lo hi) (hl : l ∈ t.lines depth) :
    lo ≤ l.start.toNat ∧ l.start.toNat ≤ l.stop.toNat ∧ l.stop.toNat ≤ hi := by
  induction t generalizing lo hi depth with
  | nil => cases hl
  | cons start stop name child sibling ihc ihs =>
      obtain ⟨hlo, hle, hhi, hchild, hsibling⟩ := h
      rw [lines, List.mem_cons, List.mem_append] at hl
      rcases hl with rfl | hl | hl
      · exact ⟨hlo, hle, hhi⟩
      · have hin := ihc hchild hl
        omega
      · have hin := ihs hsibling hl
        omega

theorem topStop_mem (depth : Nat) (h : t.topStop = some top) :
    ∃ l ∈ t.lines depth, l.stop = top := by
  induction t with
  | nil => cases h
  | cons start stop name child sibling ihc ihs =>
      cases sibling with
      | nil =>
          cases h
          exact ⟨_, List.mem_cons_self .., rfl⟩
      | cons start' stop' name' child' sibling' =>
          obtain ⟨l, hl, htop⟩ := ihs h
          exact ⟨l, by rw [lines]; simp [hl], htop⟩

theorem WellFormed.le_topStop (h : t.WellFormed lo hi) (htop : t.topStop = some top)
    (hl : l ∈ t.lines depth) : l.stop.toNat ≤ top.toNat := by
  induction t generalizing lo hi depth with
  | nil => cases hl
  | cons start stop name child sibling ihc ihs =>
      obtain ⟨hlo, hle, hhi, hchild, hsibling⟩ := h
      rw [lines, List.mem_cons, List.mem_append] at hl
      have hend : stop.toNat ≤ top.toNat := by
        cases sibling with
        | nil =>
            cases htop
            exact le_refl _
        | cons start' stop' name' child' sibling' =>
            have htop' : (cons start' stop' name' child' sibling').topStop = some top := htop
            obtain ⟨l', hl', rfl⟩ := topStop_mem depth htop'
            have hin := hsibling.bounds hl'
            omega
      rcases hl with rfl | hl | hl
      · exact hend
      · have hin := hchild.bounds hl
        omega
      · cases sibling with
        | nil => cases hl
        | cons start' stop' name' child' sibling' => exact ihs hsibling htop hl

theorem WellFormed.head_le {first : Line} (h : t.WellFormed lo hi)
    (hfirst : (t.lines depth).head? = some first) (hl : l ∈ t.lines depth) :
    first.start.toNat ≤ l.start.toNat ∧ first.depth = depth := by
  cases t with
  | nil => cases hl
  | cons start stop name child sibling =>
      cases hfirst
      obtain ⟨-, hle, hhi, hchild, hsibling⟩ := h
      have hwhole : (cons start stop name child sibling).WellFormed start.toNat hi :=
        ⟨le_refl _, hle, hhi, hchild, hsibling⟩
      exact ⟨(hwhole.bounds hl).1, rfl⟩

theorem WellFormed.isLeast {first : Line} (h : t.WellFormed lo hi)
    (hfirst : (t.lines depth).head? = some first) :
    IsLeast {a | ∃ l ∈ t.lines depth, a = l.start.toNat} first.start.toNat := by
  refine ⟨⟨first, List.mem_of_head? hfirst, rfl⟩, ?_⟩
  intro a h
  rcases h with ⟨l, hl, rfl⟩
  exact (h.head_le hfirst hl).1

theorem WellFormed.isGreatest (h : t.WellFormed lo hi) (htop : t.topStop = some top) :
    IsGreatest {a | ∃ l ∈ t.lines depth, a = l.stop.toNat} top.toNat := by
  obtain ⟨last, hlast, hstop⟩ := topStop_mem depth htop
  refine ⟨⟨last, hlast, by rw [hstop]⟩, ?_⟩
  intro a h
  rcases h with ⟨l, hl, rfl⟩
  exact h.le_topStop htop hl

theorem exists_ends (h : t ≠ nil) (depth : Nat) :
    ∃ first last top, (t.lines depth).head? = some first ∧
      (t.lines depth).getLast? = some last ∧ t.topStop = some top := by
  have htop : ∀ t : Resources, t ≠ nil → ∃ top, t.topStop = some top := by
    intro t ht
    induction t with
    | nil => exact absurd rfl ht
    | cons start stop name child sibling ihc ihs =>
        cases sibling with
        | nil => exact ⟨stop, rfl⟩
        | cons start' stop' name' child' sibling' => exact ihs (by simp)
  obtain ⟨top, htop⟩ := htop t h
  cases t with
  | nil => exact absurd rfl h
  | cons start stop name child sibling =>
      exact ⟨_, _, top, rfl, List.getLast?_eq_getLast_of_ne_nil (by simp [lines]), htop⟩

end Resources

/-! ## The range information -/

variable {lines : List Line} {first last : Line} {inBracket : List UInt8 → UInt8 → Bool}

theorem fileLines_printed (lines : List Line) :
    fileLines (printed lines) = lines.map Line.text := by
  apply fileLines_unlines
  intro text htext
  obtain ⟨l, -, rfl⟩ := List.mem_map.mp htext
  exact l.newline_notMem_text

/-- One blank of a line's range is taken away, and its last address is found all the same. -/
theorem Line.stop_of_erase (l : Line) :
    decValue (cut 45 2 (l.range.erase 32)) = Int64.ofNat l.stop.toNat := by
  have hblank : 32 ∉ addrText l.start := notMem_addrText (by decide)
  have hblank' : 32 ∉ addrText l.stop := notMem_addrText (by decide)
  obtain ⟨indent, blanks, herase⟩ : ∃ indent blanks, l.range.erase 32 =
      (List.replicate indent 32 ++ addrText l.start) ++
        45 :: (addrText l.stop ++ List.replicate blanks 32) := by
    cases hdepth : l.depth with
    | zero =>
        refine ⟨0, 0, ?_⟩
        simp only [range, hdepth, Nat.mul_zero, List.replicate_zero, List.nil_append]
        rw [List.erase_append_right _ hblank, List.erase_cons_tail (by decide),
          List.erase_append_right _ hblank']
        rfl
    | succ d =>
        refine ⟨2 * d + 1, 1, ?_⟩
        simp [range, hdepth, Nat.mul_add, List.replicate_succ]
  rw [herase, l.cut_stop, decValue_addrText]

/-- `gTotalLen`, where the first line is not indented. -/
theorem getRangeInfo_printed (g : Globals) (first last : Line)
    (hfirst : lines.head? = some first)
    (hlast : lines.getLast? = some last) (hdepth : first.depth = 0) :
    (getRangeInfo g (printed lines)).gTotalLen =
      Int64.ofNat last.stop.toNat - Int64.ofNat first.start.toNat := by
  have hfirstLine : firstLine (printed lines) = first.text := by
    unfold firstLine
    rw [fileLines_printed, List.headD_eq_head?_getD, List.head?_map, hfirst]
    rfl
  have hlastLine : lastLine (printed lines) = last.text := by
    unfold lastLine
    rw [fileLines_printed, List.getLastD_eq_getLast?, List.getLast?_map, hlast]
    rfl
  have hstart := decValue_addrText first.start 0
  rw [List.replicate_zero, List.append_nil] at hstart
  simp only [getRangeInfo, hfirstLine, hlastLine, Line.cut_range, Line.cut_start, hdepth,
    Nat.mul_zero, List.replicate_zero, List.nil_append, hstart, Line.stop_of_erase]

theorem start_gTotalLen (inBracket : List UInt8 → UInt8 → Bool) (lines : List Line) :
    (start inBracket (printed lines)).gTotalLen =
      (getRangeInfo Globals.init (printed lines)).gTotalLen := by
  have hfold : ∀ (args : List (List UInt8)) (g : Globals),
      (args.foldl (fun g line => interpretIomemRec g (unquoted inBracket line)) g).gTotalLen =
        g.gTotalLen := by
    intro args
    induction args with
    | nil => exact fun g => rfl
    | cons line args ih => exact fun g => ih _
  exact hfold _ _

/-- `gTotalLen` is the length from the lowest to the highest address, and no region is
recorded with a larger one. -/
structure Spans (t : Resources) (g : Globals) : Prop where
  length : ∃ lo hi, IsLeast {a | ∃ l ∈ t.lines 0, a = l.start.toNat} lo ∧
    IsGreatest {a | ∃ l ∈ t.lines 0, a = l.stop.toNat} hi ∧ g.gTotalLen.toInt = (hi : Int) - lo
  largest : ∀ l ∈ t.lines 0, recordedSize l ≤ g.gTotalLen.toInt

/-- `gTotalLen` is right exactly where the last line ends where the last resource of the top
level does, and the span is below 2^63. -/
theorem start_spans_iff {t : Resources} (inBracket : List UInt8 → UInt8 → Bool)
    (hne : t ≠ .nil) (h : t.WellFormed 0 (2 ^ 64 - 1)) :
    Spans t (start inBracket (printed (t.lines 0))) ↔
      ∃ first last top, (t.lines 0).head? = some first ∧ (t.lines 0).getLast? = some last ∧
        t.topStop = some top ∧ last.stop = top ∧ top.toNat - first.start.toNat < 2 ^ 63 := by
  obtain ⟨first, last, top, hfirst, hlast, htop⟩ := Resources.exists_ends hne 0
  have hfirstMem : first ∈ t.lines 0 := List.mem_of_head? hfirst
  have hlastMem : last ∈ t.lines 0 := List.mem_of_getLast? hlast
  have hlow : ∀ l ∈ t.lines 0, first.start.toNat ≤ l.start.toNat :=
    fun l hl => (h.head_le hfirst hl).1
  have hhigh : ∀ l ∈ t.lines 0, l.stop.toNat ≤ top.toNat := fun l hl => h.le_topStop htop hl
  have hleast := h.isLeast hfirst
  have hgreatest : IsGreatest {a | ∃ l ∈ t.lines 0, a = l.stop.toNat} top.toNat :=
    h.isGreatest htop
  have htotal : (start inBracket (printed (t.lines 0))).gTotalLen =
      Int64.ofNat last.stop.toNat - Int64.ofNat first.start.toNat := by
    rw [start_gTotalLen,
      getRangeInfo_printed _ first last hfirst hlast (h.head_le hfirst hfirstMem).2]
  have hlastLow := hlow last hlastMem
  have hlastBounds := h.bounds hlastMem
  have hlastHigh := hhigh last hlastMem
  constructor
  · intro h
    rcases h with ⟨⟨lo, hi, hlo, hhi, hlength⟩, -⟩
    obtain ⟨k, hk⟩ := toInt_sub_wraps last.stop first.start
    have hupper := Int64.toInt_lt (Int64.ofNat last.stop.toNat - Int64.ofNat first.start.toNat)
    have hstop := top.toNat_lt
    rw [hlo.unique hleast, hhi.unique hgreatest, htotal] at hlength
    refine ⟨first, last, top, hfirst, hlast, htop, UInt64.toNat_inj.mp ?_, ?_⟩
    · omega
    · omega
  · intro h
    rcases h with ⟨first', last', top', hfirst', hlast', htop', heq, hspan⟩
    cases hfirst.symm.trans hfirst'
    cases hlast.symm.trans hlast'
    cases htop.symm.trans htop'
    have hexact : (start inBracket (printed (t.lines 0))).gTotalLen.toInt =
        (top.toNat : Int) - first.start.toNat := by
      rw [htotal, heq]
      exact toInt_sub_eq (by omega) (by omega)
    refine ⟨⟨_, _, hleast, hgreatest, hexact⟩, fun l hl => ?_⟩
    have hbounds := h.bounds hl
    have hl₁ := hlow l hl
    have hl₂ := hhigh l hl
    have hsize : recordedSize l = (l.stop.toNat : Int) - l.start.toNat := by
      rw [recordedSize_eq]
      exact toInt_sub_eq (by omega) (by omega)
    rw [hexact, hsize]
    omega

def busToEnd : Resources :=
  .cons 0x1000 0x9ffff ramName .nil
    (.cons 0xa0000 0xbffff busName (.cons 0xb0000 0xbffff ramName .nil .nil) .nil)

theorem start_spans_bus : Spans busToEnd (start (fun _ _ => false) (printed (busToEnd.lines 0))) :=
  (start_spans_iff (fun _ _ => false) (by decide) (by decide)).mpr
    ⟨⟨0, 0x1000, 0x9ffff, ramName⟩, ⟨1, 0xb0000, 0xbffff, ramName⟩, 0xbffff, by decide⟩

def codeInRam : Resources :=
  .cons 0x1000 0x9ffff ramName (.cons 0x1000 0x1fff ramName .nil .nil) .nil

/-- The last line ends within the region, whose size is larger than `gTotalLen`. -/
theorem start_misses_end :
    codeInRam.WellFormed 0 (2 ^ 64 - 1) ∧
      (start (fun _ _ => false) (printed (codeInRam.lines 0))).gTotalLen = 0xfff ∧
      recordedSize ⟨0, 0x1000, 0x9ffff, ramName⟩ = 0x9efff ∧
      ¬Spans codeInRam (start (fun _ _ => false) (printed (codeInRam.lines 0))) := by
  have htotal : (start (fun _ _ => false) (printed (codeInRam.lines 0))).gTotalLen = 0xfff := by
    rw [start_gTotalLen, getRangeInfo_printed _ ⟨0, 0x1000, 0x9ffff, ramName⟩
      ⟨1, 0x1000, 0x1fff, ramName⟩ (by decide) (by decide) rfl]
    decide
  have hsize : recordedSize ⟨0, 0x1000, 0x9ffff, ramName⟩ = 0x9efff := by
    rw [recordedSize_eq]
    decide
  refine ⟨by decide, htotal, hsize, fun h => ?_⟩
  have hle := h.largest ⟨0, 0x1000, 0x9ffff, ramName⟩ (by decide)
  rw [hsize, htotal] at hle
  exact absurd hle (by decide)

end KernelTrg.Iomem
