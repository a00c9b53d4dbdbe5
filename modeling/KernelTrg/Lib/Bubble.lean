import Mathlib.Logic.Equiv.Basic
import Mathlib.Order.Lattice

/-!
# Bubble sort in place

A table as a function of its index, sorted by neighbours that change places: the largest key comes
first. What the sort does to the table is a permutation of the indices, and equal keys keep their
order.
-/

namespace KernelTrg.Bubble

open Equiv

section Rearrangement

/-! ## Stable rearrangements -/

variable {α β : Type*} {key : α → β} {t t' : Nat → α} {i n : Nat}

/-- `t'` has the first `n` entries of `t` in another order, those of equal keys in the old one. -/
structure Rearranges (key : α → β) (n : Nat) (σ : Perm Nat) (t t' : Nat → α) : Prop where
  eq : t' = t ∘ σ
  fixes : ∀ k, n ≤ k → σ k = k
  stable : ∀ a b, a < b → key (t' a) = key (t' b) → σ a < σ b

theorem Rearranges.refl (key : α → β) (n : Nat) (t : Nat → α) :
    Rearranges key n (Equiv.refl Nat) t t :=
  ⟨rfl, fun _ _ => rfl, fun _ _ h _ => h⟩

theorem Rearranges.lt {σ : Perm Nat} (h : Rearranges key n σ t t') (hi : i < n) : σ i < n := by
  by_contra hlarge
  have hfix := h.fixes (σ i) (Nat.le_of_not_lt hlarge)
  have hi' : σ i = i := σ.injective hfix
  omega

end Rearrangement

variable {α β : Type*} [LinearOrder β] (key : α → β)

/-- Entries `i` and `i + 1` change places if the first one is the smaller. -/
def exchange (t : Nat → α) (i : Nat) : Nat → α :=
  if key (t i) < key (t (i + 1)) then t ∘ swap i (i + 1) else t

/-- The inner loop, for the indices below `j` in turn. -/
def sweep (t : Nat → α) : Nat → Nat → α
  | 0 => t
  | j + 1 => exchange key (sweep t j) j

/-- The outer loop: sweeps over `n - 1`, `n - 2`, … pairs. -/
def bubble (t : Nat → α) : Nat → Nat → α
  | 0 => t
  | j + 1 => bubble (sweep key t j) j

/-! ## The sort rearranges -/

variable {key} {t t' : Nat → α} {i j n : Nat}

theorem Rearranges.exchange {σ : Perm Nat} (h : Rearranges key n σ t t') (hi : i + 1 < n) :
    ∃ σ', Rearranges key n σ' t (Bubble.exchange key t' i) := by
  unfold Bubble.exchange
  split
  case isFalse => exact ⟨σ, h⟩
  case isTrue hlt =>
      refine ⟨(swap i (i + 1)).trans σ, ?_, ?_, ?_⟩
      · rw [h.eq]
        rfl
      · intro k hk
        rw [trans_apply, swap_apply_of_ne_of_ne (by omega) (by omega)]
        exact h.fixes k hk
      · intro a b hab hkey
        simp only [Function.comp_apply] at hkey
        simp only [trans_apply]
        apply h.stable _ _ _ hkey
        -- only the pair itself changes its order, and its keys differ
        by_cases hpair : a = i ∧ b = i + 1
        · rw [hpair.1, hpair.2, swap_apply_left, swap_apply_right] at hkey
          rw [hkey] at hlt
          exact absurd hlt (lt_irrefl _)
        · simp only [swap_apply_def]
          split <;> split
          all_goals try split
          all_goals try split
          all_goals omega

theorem Rearranges.sweep {σ : Perm Nat} (h : Rearranges key n σ t t') (hj : j < n) :
    ∃ σ', Rearranges key n σ' t (Bubble.sweep key t' j) := by
  induction j with
  | zero => exact ⟨σ, h⟩
  | succ j ih =>
      rcases ih (by omega) with ⟨σ', h'⟩
      exact h'.exchange hj

theorem Rearranges.bubble {σ : Perm Nat} (h : Rearranges key n σ t t') (hj : j ≤ n) :
    ∃ σ', Rearranges key n σ' t (Bubble.bubble key t' j) := by
  induction j generalizing σ t' with
  | zero => exact ⟨σ, h⟩
  | succ j ih =>
      rcases h.sweep (j := j) hj with ⟨σ', h'⟩
      exact ih h' (by omega)

/-! ## The sort sorts -/

/-- From index `j` on, no entry below `n` has a larger key than one before it. -/
def SettledFrom (key : α → β) (n j : Nat) (t : Nat → α) : Prop :=
  ∀ a b, a < b → j ≤ b → b < n → key (t b) ≤ key (t a)

theorem exchange_last (t : Nat → α) (i : Nat) :
    key (exchange key t i (i + 1)) ≤ key (t i) ∧
      key (exchange key t i (i + 1)) ≤ key (exchange key t i i) := by
  unfold exchange
  split
  case isTrue h => simp [le_of_lt h]
  case isFalse h => exact ⟨le_of_not_gt h, le_of_not_gt h⟩

theorem exchange_other (t : Nat → α) {k : Nat} (hi : k ≠ i) (hs : k ≠ i + 1) :
    exchange key t i k = t k := by
  unfold exchange
  split
  · simp [swap_apply_of_ne_of_ne hi hs]
  · rfl

/-- A sweep brings the smallest of its keys to the end. -/
theorem sweep_least (t : Nat → α) {k : Nat} (hk : k ≤ j) :
    key (sweep key t j j) ≤ key (sweep key t j k) := by
  induction j generalizing k with
  | zero => rw [Nat.le_zero.mp hk]
  | succ j ih =>
      have hlast : key (sweep key t (j + 1) (j + 1)) ≤ key (sweep key t j j) ∧
          key (sweep key t (j + 1) (j + 1)) ≤ key (sweep key t (j + 1) j) :=
        exchange_last (sweep key t j) j
      rcases Nat.lt_trichotomy k j with hbelow | rfl | habove
      · have hsame : sweep key t (j + 1) k = sweep key t j k :=
          exchange_other _ (by omega) (by omega)
        rw [hsame]
        exact le_trans hlast.1 (ih (by omega))
      · exact hlast.2
      · have hend : k = j + 1 := by omega
        rw [hend]

theorem SettledFrom.sweep (h : SettledFrom key n (j + 1) t) :
    SettledFrom key n j (Bubble.sweep key t j) := by
  intro a b hab hjb hbn
  rcases Nat.eq_or_lt_of_le hjb with rfl | hlater
  · exact sweep_least t (by omega)
  · -- what lies behind the sweep is not touched, and before it are the entries there were
    rcases (Rearranges.refl key (j + 1) t).sweep (by omega : j < j + 1) with ⟨σ, hσ⟩
    have hbefore : σ a < b := by
      by_cases ha : a < j + 1
      · have := hσ.lt ha
        omega
      · rw [hσ.fixes a (by omega)]
        exact hab
    rw [hσ.eq]
    simp only [Function.comp_apply, hσ.fixes b hlater]
    exact h _ _ hbefore hlater hbn

theorem SettledFrom.bubble (h : SettledFrom key n j t) :
    SettledFrom key n 0 (Bubble.bubble key t j) := by
  induction j generalizing t with
  | zero => exact h
  | succ j ih => exact ih h.sweep

/-- The sort puts the first `n` entries in descending order of their keys, and entries of one key
stay in the order in which they were. -/
theorem bubble_sorts (key : α → β) (t : Nat → α) (n : Nat) :
    (∃ σ, Rearranges key n σ t (bubble key t n)) ∧ SettledFrom key n 0 (bubble key t n) := by
  constructor
  · exact (Rearranges.refl key n t).bubble (Nat.le_refl n)
  · have hnone : SettledFrom key n n t := fun _ _ _ hb hn => absurd hn (by omega)
    exact hnone.bubble

end KernelTrg.Bubble
