import KernelTrg.Lib.Bytes
import KernelTrg.Lib.Bubble

/-!
# The areas of memory in descending order

`mem_sequence.c` takes one address in each area of the process, sorts the five rows and prints
them. The address of `main` goes through an `int` on its way into the table.
-/

namespace KernelTrg.MemSequence

open Bytes Bubble Equiv

variable {w : Nat}

structure MemtypePtr (w : Nat) where
  ptr : BitVec w
  str : List UInt8
deriving DecidableEq, Repr

/-- Where a process of word size `w` has its example of each area; `code` is the address of
`main`. -/
structure Layout (w : Nat) where
  heap : BitVec w
  bss : BitVec w
  stack : BitVec w
  code : BitVec w
  const : BitVec w
deriving DecidableEq, Repr

abbrev memTypes : Nat := 5

/-- `type_pointer[]`, by its index. -/
abbrev Table (w : Nat) := Nat → MemtypePtr w

/-- `(int)&main`. -/
def codeExample (l : Layout w) : BitVec 32 := l.code.setWidth 32

/-- The table before the sort; the fourth row has `(int *)stack_example` of the `int` that
`print_sorted` was given. -/
def typePointer (l : Layout w) : Table w
  | 0 => ⟨l.heap, ascii "heap"⟩
  | 1 => ⟨l.bss, ascii "bss"⟩
  | 2 => ⟨l.stack, ascii "stack"⟩
  | 3 => ⟨(codeExample l).signExtend w, ascii "code"⟩
  | 4 => ⟨l.const, ascii "const's"⟩
  | _ => ⟨0, []⟩

def memXchg (t : Table w) (a b : Nat) : Table w :=
  Function.update (Function.update t a (t b)) b (t a)

/-- `for (i = 0; i < j; i++)` of the sort. -/
def forLoop (t : Table w) : Nat → Table w
  | 0 => t
  | i + 1 =>
      let t := forLoop t i
      if (t i).ptr < (t (i + 1)).ptr then memXchg t i (i + 1) else t

/-- `while (j--)` of the sort. -/
def whileLoop (t : Table w) : Nat → Table w
  | 0 => t
  | j + 1 => whileLoop (forLoop t j) j

/-- `"%d.(0x%.8x) %s\n"`. -/
def line (i : Nat) (row : MemtypePtr w) : List UInt8 :=
  decimal (i + 1) ++ ascii ".(0x" ++
    (hexadecimal (row.ptr.setWidth 32).toNat).leftpad 8 48 ++ ascii ") " ++ row.str ++ ascii "\n"

def printSorted (l : Layout w) : List (List UInt8) :=
  (List.range memTypes).map fun i => line i (whileLoop (typePointer l) memTypes i)

/-! ## The loops are the sort -/

theorem memXchg_eq (t : Table w) (i : Nat) : memXchg t i (i + 1) = t ∘ swap i (i + 1) := by
  funext k
  by_cases hs : k = i + 1
  · simp [memXchg, hs]
  by_cases hi : k = i
  · simp [memXchg, hi]
  · simp [memXchg, hs, hi, swap_apply_of_ne_of_ne hi hs]

theorem forLoop_eq (t : Table w) (j : Nat) : forLoop t j = sweep (·.ptr.toNat) t j := by
  induction j with
  | zero => rfl
  | succ j ih => simp only [forLoop, sweep, exchange, ih, memXchg_eq, BitVec.lt_def]

theorem whileLoop_eq (t : Table w) (j : Nat) : whileLoop t j = bubble (·.ptr.toNat) t j := by
  induction j generalizing t with
  | zero => rfl
  | succ j ih => simp only [whileLoop, bubble, ih, forLoop_eq]

/-! ## What is listed -/

def stored (l : Layout w) (k : Nat) : Nat := (typePointer l k).ptr.toNat

def address (l : Layout w) (k : Nat) : Nat := if k = 3 then l.code.toNat else stored l k

def Before (l : Layout w) (a b : Nat) : Prop :=
  stored l b < stored l a ∨ stored l a = stored l b ∧ a < b

/-- The list `σ` of rows descends in the addresses of their areas. -/
def Descends (l : Layout w) (σ : Perm Nat) : Prop :=
  ∀ i j, i < j → j < memTypes → address l (σ j) ≤ address l (σ i)

/-- The row of `main` is listed where `main` belongs among the other areas. -/
def CodeInPlace (l : Layout w) : Prop :=
  ∀ k < memTypes, k ≠ 3 →
    (Before l k 3 → l.code.toNat ≤ address l k) ∧ (¬Before l k 3 → address l k ≤ l.code.toNat)

theorem Before.asymm {l : Layout w} {a b : Nat} (h : Before l a b) : ¬Before l b a := by
  unfold Before at h ⊢
  omega

section Listed

variable {l : Layout w} {σ : Perm Nat}

structure Listed (l : Layout w) (σ : Perm Nat) : Prop where
  fixes : ∀ k, memTypes ≤ k → σ k = k
  order : ∀ i j, i < j → j < memTypes → Before l (σ i) (σ j)

theorem Listed.row_lt (h : Listed l σ) {i : Nat} (hi : i < memTypes) : σ i < memTypes := by
  by_contra hlarge
  have hsame : σ i = i := σ.injective (h.fixes _ (Nat.le_of_not_lt hlarge))
  omega

theorem Listed.place_lt (h : Listed l σ) {k : Nat} (hk : k < memTypes) :
    σ.symm k < memTypes := by
  by_contra hlarge
  have hsame := h.fixes _ (Nat.le_of_not_lt hlarge)
  rw [apply_symm_apply] at hsame
  omega

theorem Listed.above (h : Listed l σ) {a b : Nat} (ha : a < memTypes) (hab : Before l a b) :
    σ.symm a < σ.symm b := by
  rcases Nat.lt_trichotomy (σ.symm a) (σ.symm b) with hlt | heq | hgt
  · exact hlt
  · have hsame : a = b := σ.symm.injective heq
    rw [hsame] at hab
    exact absurd hab hab.asymm
  · have hback := h.order _ _ hgt (h.place_lt ha)
    rw [apply_symm_apply, apply_symm_apply] at hback
    exact absurd hback hab.asymm

theorem Listed.descends_iff (h : Listed l σ) : Descends l σ ↔ CodeInPlace l := by
  have htotal : ∀ k, k ≠ 3 → Before l k 3 ∨ Before l 3 k := by
    intro k hk
    unfold Before
    omega
  constructor
  · intro hdesc k hk hne
    have hdown : ∀ a b, a < memTypes → b < memTypes → Before l a b → address l b ≤ address l a := by
      intro a b ha hb hab
      have haddr := hdesc _ _ (h.above ha hab) (h.place_lt hb)
      rwa [apply_symm_apply, apply_symm_apply] at haddr
    constructor
    · intro hbefore
      simpa [address] using hdown k 3 hk (by decide) hbefore
    · intro hafter
      have hbelow := hdown 3 k (by decide) hk ((htotal k hne).resolve_left hafter)
      simpa [address] using hbelow
  · intro hcode i j hij hj
    have hbefore := h.order i j hij hj
    have hdiff : σ i ≠ σ j := fun heq => absurd (σ.injective heq) (by omega)
    by_cases hi3 : σ i = 3
    · rw [hi3] at hbefore hdiff ⊢
      have hplace := (hcode (σ j) (h.row_lt hj) (Ne.symm hdiff)).2 hbefore.asymm
      simpa [address] using hplace
    · by_cases hj3 : σ j = 3
      · rw [hj3] at hbefore ⊢
        have hplace := (hcode (σ i) (h.row_lt (by omega)) hi3).1 hbefore
        simpa [address] using hplace
      · simp only [address, if_neg hi3, if_neg hj3]
        rcases hbefore with hlt | ⟨heq, _⟩
        · exact Nat.le_of_lt hlt
        · exact Nat.le_of_eq heq.symm

end Listed

/-- The five rows are printed in descending order of the pointers that the table holds, rows of one
pointer in the order of the table. The list descends in the addresses of the areas themselves
exactly if `main`, after its trip through an `int`, is still between the same areas. -/
theorem print_sorted_listing (l : Layout w) :
    ∃ σ : Perm Nat, Listed l σ ∧
      printSorted l = ((List.range memTypes).map fun i => line i (typePointer l (σ i))) ∧
      (Descends l σ ↔ CodeInPlace l) := by
  rcases bubble_sorts (·.ptr.toNat) (typePointer l) memTypes with ⟨⟨σ, hσ⟩, hsettled⟩
  have hlisted : Listed l σ := by
    constructor
    · exact hσ.fixes
    · intro i j hij hj
      have hdown := hsettled i j hij (Nat.zero_le _) hj
      have hstable := hσ.stable i j hij
      rw [hσ.eq] at hdown hstable
      simp only [Function.comp_apply] at hdown hstable
      unfold Before stored
      rcases Nat.lt_or_eq_of_le hdown with hlt | heq
      · exact Or.inl hlt
      · exact Or.inr ⟨heq.symm, hstable heq.symm⟩
  have hprint : printSorted l =
      (List.range memTypes).map fun i => line i (typePointer l (σ i)) := by
    unfold printSorted
    rw [whileLoop_eq, hσ.eq]
    rfl
  exact ⟨σ, hlisted, hprint, hlisted.descends_iff⟩

instance (l : Layout w) (a b : Nat) : Decidable (Before l a b) :=
  inferInstanceAs (Decidable (_ ∨ _ ∧ _))

instance (l : Layout w) : Decidable (CodeInPlace l) :=
  inferInstanceAs (Decidable (∀ k < memTypes, _))

/-- A position-independent 64-bit process: `main` is the lowest of its areas, and as bit 31 of its
address is set the table has it above the stack. -/
example : ¬CodeInPlace (w := 64)
    ⟨0x55d4b82a92a0, 0x55d4b6e04010, 0x7fffffffe0bc, 0x55d4b6e01189, 0x55d4b6e02008⟩ := by
  decide

end KernelTrg.MemSequence
