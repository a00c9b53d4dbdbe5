import KernelTrg.Iomem.Parsing

/-!
# Sizes of regions that tile another

The script takes the difference of two inclusive addresses for a size, one less than the
number of addresses. The sizes of regions that tile a parent fall short of the size of
the parent by one for each further region.
-/

namespace KernelTrg.Iomem

open Bytes Shell

/-- The `sz` of a line, whose text is put in the array. -/
def recordedSize (l : Line) : Int := (rangeSize (cut 58 1 l.text)).toInt

def Line.addresses (l : Line) : Int := (l.stop.toNat : Int) - l.start.toNat + 1

/-- The regions follow each other from `first` to `last` without a gap. -/
inductive Tiles : Nat → Nat → List Line → Prop where
  | one (l : Line) (le : l.start.toNat ≤ l.stop.toNat) : Tiles l.start.toNat l.stop.toNat [l]
  | cons (l : Line) {last : Nat} {siblings : List Line} (le : l.start.toNat ≤ l.stop.toNat)
      (rest : Tiles (l.stop.toNat + 1) last siblings) : Tiles l.start.toNat last (l :: siblings)

variable {parent l : Line} {first last : Nat} {siblings : List Line}

theorem recordedSize_eq (l : Line) : recordedSize l = l.size.toInt := by
  unfold recordedSize
  rw [l.cut_range, rangeSize_range]

theorem recordedSize_wraps (l : Line) :
    ∃ k : Int, recordedSize l = (l.stop.toNat : Int) - l.start.toNat + 2 ^ 64 * k := by
  rw [recordedSize_eq]
  exact toInt_sub_wraps l.stop l.start

theorem recordedSize_ne_addresses (l : Line) : recordedSize l ≠ l.addresses := by
  obtain ⟨k, hk⟩ := recordedSize_wraps l
  rw [hk, Line.addresses]
  omega

theorem Tiles.length_le (h : Tiles first last siblings) :
    0 < siblings.length ∧ first + siblings.length ≤ last + 1 := by
  induction h with
  | one l le => simpa using le
  | cons l le rest ih =>
      rw [List.length_cons]
      omega

/-- The recorded sizes of the tiles miss one address for each of them. -/
theorem Tiles.sum_recordedSize (h : Tiles first last siblings) :
    ∃ k : Int, (siblings.map recordedSize).sum + siblings.length =
      (last : Int) - first + 1 + 2 ^ 64 * k := by
  induction h with
  | one l le =>
      obtain ⟨k, hk⟩ := recordedSize_wraps l
      refine ⟨k, ?_⟩
      simp only [List.map_cons, List.map_nil, List.sum_cons, List.sum_nil, List.length_cons,
        List.length_nil, hk]
      omega
  | cons l le rest ih =>
      obtain ⟨k, hk⟩ := recordedSize_wraps l
      obtain ⟨k', hk'⟩ := ih
      refine ⟨k + k', ?_⟩
      simp only [List.map_cons, List.sum_cons, List.length_cons, hk]
      push_cast at hk' ⊢
      omega

theorem Tiles.single (h : Tiles first last siblings) (hone : siblings.length = 1) :
    ∃ l, siblings = [l] ∧ l.start.toNat = first ∧ l.stop.toNat = last := by
  cases h with
  | one l le => exact ⟨l, rfl, rfl, rfl⟩
  | cons l le rest =>
      have hpos := rest.length_le.1
      rw [List.length_cons] at hone
      omega

theorem sum_recordedSize_iff (h : Tiles parent.start.toNat parent.stop.toNat siblings) :
    (siblings.map recordedSize).sum = recordedSize parent ↔ siblings.length = 1 := by
  constructor
  · intro hsum
    obtain ⟨k, hk⟩ := h.sum_recordedSize
    obtain ⟨k', hk'⟩ := recordedSize_wraps parent
    have hlen := h.length_le
    have hstop := parent.stop.toNat_lt
    omega
  · intro hone
    obtain ⟨l, rfl, hstart, hstop⟩ := h.single hone
    have hsize : l.size = parent.size := by rw [Line.size, Line.size, hstart, hstop]
    simp [recordedSize_eq, hsize]

/-- For no tiling are the sizes both additive and numbers of addresses: they are additive for
single tiles only, and numbers of addresses never. -/
theorem sizes_not_additive (h : Tiles parent.start.toNat parent.stop.toNat siblings) :
    ¬((siblings.map recordedSize).sum = recordedSize parent ∧
      ∀ l ∈ parent :: siblings, recordedSize l = l.addresses) ∧
    ((siblings.map recordedSize).sum = recordedSize parent ↔ siblings.length = 1) ∧
    ∀ l ∈ parent :: siblings, recordedSize l ≠ l.addresses := by
  refine ⟨?_, sum_recordedSize_iff h, fun l _ => recordedSize_ne_addresses l⟩
  intro h
  rcases h with ⟨-, hsizes⟩
  exact recordedSize_ne_addresses parent (hsizes parent (by simp))

def twoPages : Line := ⟨0, 0x1000, 0x2fff, ramName⟩

def pages : List Line := [⟨1, 0x1000, 0x1fff, ramName⟩, ⟨1, 0x2000, 0x2fff, ramName⟩]

theorem pages_tile : Tiles twoPages.start.toNat twoPages.stop.toNat pages :=
  .cons ⟨1, 0x1000, 0x1fff, ramName⟩ (by decide) (.one ⟨1, 0x2000, 0x2fff, ramName⟩ (by decide))

/-- Two pages that tile a region. -/
theorem sizes_not_additive_pages :
    ¬((pages.map recordedSize).sum = recordedSize twoPages ∧
      ∀ l ∈ twoPages :: pages, recordedSize l = l.addresses) :=
  (sizes_not_additive pages_tile).1

/-- Their recorded sizes are 4095 each, and that of the region is 8191. -/
theorem sizes_of_pages :
    Tiles twoPages.start.toNat twoPages.stop.toNat pages ∧
      pages.map recordedSize = [4095, 4095] ∧ recordedSize twoPages = 8191 ∧
      ¬((pages.map recordedSize).sum = recordedSize twoPages ∧
        ∀ l ∈ twoPages :: pages, recordedSize l = l.addresses) := by
  have hpages : pages.map recordedSize = [4095, 4095] := by
    simp only [pages, List.map_cons, List.map_nil, recordedSize_eq]
    decide
  have hparent : recordedSize twoPages = 8191 := by
    rw [recordedSize_eq]
    decide
  refine ⟨pages_tile, hpages, hparent, ?_⟩
  intro h
  rcases h with ⟨hsum, -⟩
  rw [hpages, hparent] at hsum
  exact absurd hsum (by decide)

end KernelTrg.Iomem
