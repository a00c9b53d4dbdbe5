import Mathlib.Logic.Basic
import Mathlib.Data.List.Basic

/-!
# Runs of a partial step function

A system is a partial function `step : σ → α → Option σ`: an action either is
enabled and gives the next state, or it is not. The invariant rules below are
the only inductions over runs; a client proves one-step facts.
-/

namespace KernelTrg.Runs

variable {σ α : Type*} (step : σ → α → Option σ)

/-- Take the actions of a list in order; `none` when one of them is not enabled. -/
def exec : σ → List α → Option σ
  | s, [] => some s
  | s, a :: as => (step s a).bind fun s' => exec s' as

theorem exec_cons (s : σ) (a : α) (as : List α) :
    exec step s (a :: as) = (step s a).bind fun s' => exec step s' as := rfl

theorem exec_cons_eq_some {s t : σ} {a : α} {as : List α} :
    exec step s (a :: as) = some t ↔ ∃ m, step s a = some m ∧ exec step m as = some t := by
  simp [exec, Option.bind_eq_some_iff]

theorem exec_append (s : σ) (as bs : List α) :
    exec step s (as ++ bs) = (exec step s as).bind fun m => exec step m bs := by
  induction as generalizing s with
  | nil => rfl
  | cons a as ih =>
      rw [List.cons_append, exec_cons, exec_cons, Option.bind_assoc]
      simp only [ih]

/-- A run in rounds, from one state of a sequence to the next in each of them. -/
theorem exec_rounds (S : Nat → σ) (round : Nat → List α) {m : Nat}
    (h : ∀ k < m, exec step (S k) (round k) = some (S (k + 1))) :
    exec step (S 0) ((List.range m).flatMap round) = some (S m) := by
  induction m with
  | zero => rfl
  | succ m ih =>
      rw [List.range_succ, List.flatMap_append, exec_append, ih fun k hk => h k (by omega),
        Option.bind_some, List.flatMap_singleton, h m (Nat.lt_succ_self m)]

/-- Every action a run takes meets the guard `G` in the state it is taken in. -/
def Along (G : σ → α → Prop) : σ → List α → Prop
  | _, [] => True
  | s, a :: as => G s a ∧ ∀ m, step s a = some m → Along G m as

instance Along.decidable {G : σ → α → Prop} [∀ s a, Decidable (G s a)] :
    ∀ (s : σ) (as : List α), Decidable (Along step G s as)
  | _, [] => isTrue trivial
  | s, a :: as =>
      match h : step s a with
      | none => decidable_of_iff (G s a) (by simp [Along, h])
      | some m =>
          have := Along.decidable (G := G) m as
          decidable_of_iff (G s a ∧ Along step G m as) (by simp [Along, h])

variable {step}

/-- What a guarded step preserves holds at the end of a guarded run. -/
theorem exec_invariant {I : σ → Prop} {G : σ → α → Prop}
    (hstep : ∀ s a t, I s → G s a → step s a = some t → I t)
    {s t : σ} {as : List α} (hs : I s) (hG : Along step G s as)
    (h : exec step s as = some t) : I t := by
  induction as generalizing s with
  | nil =>
      cases h
      exact hs
  | cons a as ih =>
      obtain ⟨m, hm, ht⟩ := (exec_cons_eq_some step).mp h
      exact ih (hstep s a m hs hG.1 hm) (hG.2 m hm) ht

theorem Along.of_mem {P : α → Prop} {as : List α} (h : ∀ a ∈ as, P a) (s : σ) :
    Along step (fun _ a => P a) s as := by
  induction as generalizing s with
  | nil => trivial
  | cons a as ih => exact ⟨h a (by simp), fun m _ => ih (fun x hx => h x (by simp [hx])) m⟩

/-- A measure that every guarded step decreases bounds the length of a guarded run. -/
theorem exec_length_le {I : σ → Prop} {G : σ → α → Prop} (μ : σ → Nat)
    (hstep : ∀ s a t, I s → G s a → step s a = some t → I t ∧ μ t < μ s)
    {s t : σ} {as : List α} (hs : I s) (hG : Along step G s as) (h : exec step s as = some t) :
    as.length + μ t ≤ μ s := by
  induction as generalizing s with
  | nil =>
      cases h
      simp
  | cons a as ih =>
      obtain ⟨m, hm, ht⟩ := (exec_cons_eq_some step).mp h
      obtain ⟨hI, hlt⟩ := hstep s a m hs hG.1 hm
      have hrest := ih hI (hG.2 m hm) ht
      simp only [List.length_cons]
      omega

/-! ## Runs to a goal -/

section Goals

variable (step)

/-- Some run from `s` along the guard ends in `Q`. -/
def Reaches (G : σ → α → Prop) (s : σ) (Q : σ → Prop) : Prop :=
  ∃ as t, Along step G s as ∧ exec step s as = some t ∧ Q t

variable {step} {G : σ → α → Prop} {s m : σ} {a : α} {as bs : List α} {Q R : σ → Prop}

theorem Along.cons (ha : step s a = some m) (hG : G s a) (h : Along step G m as) :
    Along step G s (a :: as) := by
  refine ⟨hG, fun m' hm' => ?_⟩
  cases ha.symm.trans hm'
  exact h

theorem Along.append (h : Along step G s as) (has : exec step s as = some m)
    (h' : Along step G m bs) : Along step G s (as ++ bs) := by
  induction as generalizing s with
  | nil =>
      cases has
      exact h'
  | cons a as ih =>
      obtain ⟨m', hm', hrest⟩ := (exec_cons_eq_some step).mp has
      exact .cons hm' h.1 (ih (h.2 m' hm') hrest)

theorem Reaches.done (h : Q s) : Reaches step G s Q := ⟨[], s, trivial, rfl, h⟩

theorem Reaches.cons (ha : step s a = some m) (hG : G s a) (h : Reaches step G m Q) :
    Reaches step G s Q := by
  obtain ⟨as, t, halong, has, hQ⟩ := h
  exact ⟨a :: as, t, .cons ha hG halong, by rw [exec_cons, ha, Option.bind_some, has], hQ⟩

theorem Reaches.trans (h : Reaches step G s Q) (hQ : ∀ m, Q m → Reaches step G m R) :
    Reaches step G s R := by
  obtain ⟨as, m, halong, has, hm⟩ := h
  obtain ⟨bs, t, halong', hbs, hR⟩ := hQ m hm
  exact ⟨as ++ bs, t, halong.append has halong',
    by rw [exec_append, has, Option.bind_some, hbs], hR⟩

end Goals

/-! ## What held at some time of a run -/

section Past

variable (step)

/-- In some state of the run from `s` by the actions of the list, `P` held. -/
def Once (s : σ) (as : List α) (P : σ → Prop) : Prop :=
  ∃ front m, front <+: as ∧ exec step s front = some m ∧ P m

variable {step} {s t : σ} {as : List α} {P Q : σ → Prop}

theorem Once.now (h : exec step s as = some t) (ht : P t) : Once step s as P :=
  ⟨as, t, List.prefix_refl _, h, ht⟩

theorem Once.later (h : Once step s as P) (bs : List α) : Once step s (as ++ bs) P := by
  obtain ⟨front, m, hfront, hm, hP⟩ := h
  exact ⟨front, m, hfront.trans (List.prefix_append _ _), hm, hP⟩

theorem Once.imp (h : Once step s as P)
    (hPQ : ∀ front m, front <+: as → exec step s front = some m → P m → Q m) :
    Once step s as Q := by
  obtain ⟨front, m, hfront, hm, hP⟩ := h
  exact ⟨front, m, hfront, hm, hPQ front m hfront hm hP⟩

theorem exec_snoc {m : σ} {a : α} (h : exec step s as = some m) (ha : step m a = some t) :
    exec step s (as ++ [a]) = some t := by
  rw [exec_append, h, Option.bind_some, exec_cons, ha]
  rfl

/-- The invariant rule for what speaks of the run so far as well as of its last state. -/
theorem exec_history {I : List α → σ → Prop} {G : σ → α → Prop}
    (hstep : ∀ as m a m', exec step s as = some m → I as m → G m a → step m a = some m' →
      I (as ++ [a]) m')
    (hs : I [] s) (hG : Along step G s as) (h : exec step s as = some t) : I as t := by
  -- the run so far, and the rest of it
  have hrest : ∀ (back front : List α) (m : σ), exec step s front = some m → I front m →
      Along step G m back → exec step m back = some t → I (front ++ back) t := by
    intro back
    induction back with
    | nil =>
        intro front m _ hI _ hend
        cases hend
        rw [List.append_nil]
        exact hI
    | cons a back ih =>
        intro front m hm hI hG hend
        obtain ⟨m', hm', hend⟩ := (exec_cons_eq_some step).mp hend
        have hnext := ih (front ++ [a]) m' (exec_snoc hm hm') (hstep front m a m' hm hI hG.1 hm')
          (hG.2 m' hm') hend
        rwa [List.append_assoc] at hnext
  exact hrest as [] s rfl hs hG h

/-! ## The states of a run by their times -/

theorem exec_take (h : exec step s as = some t) (k : Nat) :
    ∃ m, exec step s (as.take k) = some m := by
  rw [← List.take_append_drop k as, exec_append] at h
  obtain ⟨m, hm, -⟩ := Option.bind_eq_some_iff.mp h
  exact ⟨m, hm⟩

theorem exec_take_succ {k : Nat} {m : σ} {a : α} (h : exec step s (as.take k) = some m)
    (ha : as[k]? = some a) : exec step s (as.take (k + 1)) = step m a := by
  rw [List.take_add_one, ha, exec_append, h, Option.bind_some, Option.toList_some, exec_cons]
  cases step m a <;> rfl

theorem exec_between {k l : Nat} {m m' : σ} (h : exec step s (as.take k) = some m)
    (h' : exec step s (as.take l) = some m') (hkl : k ≤ l) :
    exec step m ((as.take l).drop k) = some m' := by
  rw [← List.take_append_drop k (as.take l), List.take_take, Nat.min_eq_left hkl, exec_append, h,
    Option.bind_some] at h'
  exact h'

theorem Along.take {G : σ → α → Prop} (h : Along step G s as) (k : Nat) :
    Along step G s (as.take k) := by
  induction as generalizing s k with
  | nil => simpa using h
  | cons a as ih =>
      cases k with
      | zero => trivial
      | succ k => exact ⟨h.1, fun m hm => ih (h.2 m hm) k⟩

theorem Along.at {G : σ → α → Prop} (h : Along step G s as) {k : Nat} {m : σ} {a : α}
    (hm : exec step s (as.take k) = some m) (ha : as[k]? = some a) : G m a := by
  induction as generalizing s k with
  | nil => simp at ha
  | cons b as ih =>
      cases k with
      | zero =>
          cases hm
          cases ha
          exact h.1
      | succ k =>
          obtain ⟨m', hm', hrest⟩ := (exec_cons_eq_some step).mp hm
          exact ih (h.2 m' hm') hrest (by simpa using ha)

theorem Once.at (h : Once step s as P) :
    ∃ k m, k ≤ as.length ∧ exec step s (as.take k) = some m ∧ P m := by
  obtain ⟨front, m, hfront, hm, hP⟩ := h
  refine ⟨front.length, m, hfront.length_le, ?_, hP⟩
  rw [← List.prefix_iff_eq_take.mp hfront]
  exact hm

end Past

end KernelTrg.Runs
