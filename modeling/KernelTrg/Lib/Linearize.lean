import Mathlib.Data.List.Sort

/-!
# One order for operations that overlap

Operations run at the same time, and what they do is as if they were done one after the other. The
state of each time of the run is given, and for each operation a point: a time at which it moves the
state to that of the next time, or one at which it only looks at it. The operations in the order of
their points are the ones after the other.
-/

namespace KernelTrg.Linearize

variable {σ ι ρ : Type*}

/-- The operations, done one after the other from `s`, have their results and lead to `s'`. -/
def Legal (apply : ι → σ → σ × ρ) (result : ι → Option ρ) : σ → List ι → σ → Prop
  | s, [], s' => s = s'
  | s, i :: order, s' =>
      (∀ r ∈ result i, (apply i s).2 = r) ∧ Legal apply result (apply i s).1 order s'

/-- An order of operations, all that have a result among them: none stands behind one that began
when it was over. -/
structure Linearization (apply : ι → σ → σ × ρ) (result : ι → Option ρ) (before : ι → ι → Prop)
    (s s' : σ) (order : List ι) : Prop where
  nodup : order.Nodup
  complete : ∀ i, result i ≠ none → i ∈ order
  ordered : order.Pairwise fun i j => ¬before j i
  legal : Legal apply result s order s'

/-! ## Points -/

structure Point where
  time : Nat
  moves : Bool

/-- Those who look at the state of a time come before the one who moves it. -/
def Point.rank (p : Point) : Nat := 2 * p.time + p.moves.toNat

/-- At the point the operation does what it would do on its own, with its result. -/
structure Placed (apply : ι → σ → σ × ρ) (result : ι → Option ρ) (state : Nat → σ) (p : Point)
    (i : ι) : Prop where
  state_eq : (apply i (state p.time)).1 = state (p.time + p.moves.toNat)
  result_eq : ∀ r ∈ result i, (apply i (state p.time)).2 = r

/-- Nothing moves the state up to the time `last` but the operations at their points, one at a
time. -/
structure Timeline (apply : ι → σ → σ × ρ) (result : ι → Option ρ) (state : Nat → σ) (last : Nat)
    (calls : List ι) (point : ι → Point) : Prop where
  within : ∀ i ∈ calls, (point i).time + (point i).moves.toNat ≤ last
  placed : ∀ i ∈ calls, Placed apply result state (point i) i
  alone : ∀ i ∈ calls, ∀ j ∈ calls, (point i).moves = true → (point j).moves = true →
    (point i).time = (point j).time → i = j
  still : ∀ t < last, (∀ i ∈ calls, (point i).moves = true → (point i).time ≠ t) →
    state (t + 1) = state t

variable {apply : ι → σ → σ × ρ} {result : ι → Option ρ} {before : ι → ι → Prop}
  {state : Nat → σ} {last : Nat} {calls order : List ι} {point : ι → Point}

namespace Timeline

theorem still_between (h : Timeline apply result state last calls point) {t t' : Nat} (ht : t ≤ t')
    (ht' : t' ≤ last)
    (hnone : ∀ i ∈ calls, (point i).moves = true → t ≤ (point i).time → t' ≤ (point i).time) :
    state t' = state t := by
  induction t', ht using Nat.le_induction with
  | base => rfl
  | succ t' ht ih =>
      rw [h.still t' ht', ih (by omega)]
      · intro i hi hmoves hle
        have := hnone i hi hmoves hle
        omega
      · intro i hi hmoves heq
        have := hnone i hi hmoves (by omega)
        omega

/-- Sorted operations from a time on, all that move the state from then on among them, lead to the
last state. -/
theorem legal_from (h : Timeline apply result state last calls point) (hsub : ∀ i ∈ order, i ∈ calls)
    (hnodup : order.Nodup) (hsorted : order.Pairwise fun i j => (point i).rank ≤ (point j).rank)
    {t : Nat} (ht : t ≤ last) (hfrom : ∀ i ∈ order, 2 * t ≤ (point i).rank)
    (hall : ∀ i ∈ calls, (point i).moves = true → t ≤ (point i).time → i ∈ order) :
    Legal apply result (state t) order (state last) := by
  induction order generalizing t with
  | nil =>
      have hnone : ∀ i ∈ calls, (point i).moves = true → t ≤ (point i).time →
          last ≤ (point i).time := by
        intro i hi hmoves hle
        exact absurd (hall i hi hmoves hle) List.not_mem_nil
      exact (h.still_between ht (Nat.le_refl last) hnone).symm
  | cons i order ih =>
      have hi : i ∈ calls := hsub i List.mem_cons_self
      have hwithin := h.within i hi
      have hrank : ∀ j, (point j).rank = 2 * (point j).time + (point j).moves.toNat := fun _ => rfl
      have hone : ∀ j, (point j).moves.toNat ≤ 1 := fun j => Bool.toNat_le _
      have hmover : ∀ j, (point j).moves = true → (point j).moves.toNat = 1 := by
        intro j hj
        rw [hj]
        rfl
      rw [List.pairwise_cons] at hsorted
      rw [List.nodup_cons] at hnodup
      have hle : t ≤ (point i).time := by
        have := hfrom i List.mem_cons_self
        have := hone i
        rw [hrank] at *
        omega
      -- nobody moves the state before the first point
      have hstate : state (point i).time = state t := by
        apply h.still_between hle (by omega)
        intro j hj hmoves hjt
        rcases List.mem_cons.mp (hall j hj hmoves hjt) with rfl | hlater
        · exact Nat.le_refl _
        · have := hsorted.1 j hlater
          have := hone j
          rw [hrank, hrank, hmover j hmoves] at *
          omega
      have hplaced := h.placed i hi
      rw [← hstate]
      refine ⟨hplaced.result_eq, ?_⟩
      rw [hplaced.state_eq]
      apply ih (fun j hj => hsub j (List.mem_cons_of_mem _ hj)) hnodup.2 hsorted.2 hwithin
      · intro j hj
        have hij := hsorted.1 j hj
        rw [hrank, hrank] at *
        cases hmoves : (point i).moves with
        | false => simp only [hmoves, Bool.toNat_false] at *; omega
        | true =>
            -- the next one that moves the state does so at a later time
            have hne : ¬((point j).moves = true ∧ (point i).time = (point j).time) := by
              intro hsame
              have heq := h.alone i hi j (hsub j (List.mem_cons_of_mem _ hj)) hmoves hsame.1 hsame.2
              rw [heq] at hnodup
              exact hnodup.1 hj
            cases hmoves' : (point j).moves with
            | false =>
                simp only [hmoves, hmoves', Bool.toNat_true, Bool.toNat_false] at *
                omega
            | true =>
                simp only [hmoves, hmoves', Bool.toNat_true, true_and] at *
                omega
      · intro j hj hmoves hjt
        have hlow : t ≤ (point j).time := by omega
        rcases List.mem_cons.mp (hall j hj hmoves hlow) with rfl | hlater
        · rw [hmover j hmoves] at hjt
          omega
        · exact hlater

/-- Operations with points of their own are as if done one after the other, where each point lies
within its operation. -/
theorem linearizes (h : Timeline apply result state last calls point) (hnodup : calls.Nodup)
    (hcomplete : ∀ i, result i ≠ none → i ∈ calls)
    (hbefore : ∀ i ∈ calls, ∀ j ∈ calls, before i j → (point i).rank < (point j).rank) :
    ∃ order, Linearization apply result before (state 0) (state last) order ∧
      ∀ i ∈ order, i ∈ calls := by
  let r : ι → ι → Prop := fun i j => (point i).rank ≤ (point j).rank
  have hdec : DecidableRel r := fun i j => Nat.decLe _ _
  have htotal : Std.Total r := ⟨fun i j => Nat.le_total _ _⟩
  have htrans : IsTrans ι r := ⟨fun _ _ _ => Nat.le_trans⟩
  let order := calls.insertionSort r
  have hperm : order.Perm calls := List.perm_insertionSort r calls
  have hmem : ∀ i ∈ order, i ∈ calls := fun i hi => hperm.mem_iff.mp hi
  have hsorted : order.Pairwise r := List.pairwise_insertionSort r calls
  refine ⟨order, ⟨hperm.nodup_iff.mpr hnodup, ?_, ?_, ?_⟩, hmem⟩
  · exact fun i hi => hperm.mem_iff.mpr (hcomplete i hi)
  · apply hsorted.imp_of_mem
    intro i j hi hj hle hback
    exact absurd (hbefore j (hmem j hj) i (hmem i hi) hback) (Nat.not_lt.mpr hle)
  · exact h.legal_from hmem (hperm.nodup_iff.mpr hnodup) hsorted (Nat.zero_le _)
      (fun _ _ => Nat.zero_le _) (fun i hi _ _ => hperm.mem_iff.mpr hi)

end Timeline

end KernelTrg.Linearize
