import KernelTrg.Lib.Runs
import Mathlib.Algebra.Order.Group.Nat
import Mathlib.Data.Finset.Card
import Mathlib.Data.Finset.Range
import Mathlib.Logic.Function.Basic

/-!
# The unlocked counter

`main` creates some threads, which add 1 to a global counter each, joins them and prints the
counter. The increment is a load and a store, each of them atomic, and the steps of the threads
and of `main` come in any order. The number of threads is far from the range of the counter.
-/

namespace KernelTrg.Counting

open Runs

/-- A thread of `countup`: not created yet, before its load (asleep or not), between its load and
its store, and after its store. -/
inductive Thread where
  | absent
  | started
  | loaded (val : Nat)
  | exited
deriving DecidableEq, Repr

/-- `main` from the creation of the threads on, which exits where one cannot be created. -/
inductive Main where
  | creating (t : Nat)
  | joining (i : Nat)
  | printing
  | printed (val : Nat)
  | failed
deriving DecidableEq, Repr

structure State where
  counter : Nat
  threads : Nat → Thread
  main : Main

def State.move (s : State) (t : Nat) (x : Thread) : State :=
  { s with threads := Function.update s.threads t x }

inductive Event where
  | create
  | createFails
  | load (t : Nat)
  | store (t : Nat)
  | join
  | print
deriving DecidableEq, Repr

/-- `for (i = 0; i < numthrds; i++)` of the joins, before turn `i`. -/
def joinLoop (numthrds i : Nat) : Main := if i < numthrds then .joining i else .printing

/-- `for (t = 0; t < numthrds; t++)` of the creations, before turn `t`. -/
def createLoop (numthrds t : Nat) : Main :=
  if t < numthrds then .creating t else joinLoop numthrds 0

def boot (numthrds : Nat) : State := ⟨0, fun _ => .absent, createLoop numthrds 0⟩

/-- The exit of a failed `main` is the end of all threads. -/
def step (numthrds : Nat) (s : State) : Event → Option State
  | .create =>
      match s.main with
      | .creating t => some { s.move t .started with main := createLoop numthrds (t + 1) }
      | _ => none
  | .createFails =>
      match s.main with
      | .creating _ => some { s with main := .failed }
      | _ => none
  | .load t =>
      if s.main ≠ .failed ∧ s.threads t = .started then
        some (s.move t (.loaded s.counter))
      else none
  | .store t =>
      match s.threads t with
      | .loaded val =>
          if s.main ≠ .failed then some { s.move t .exited with counter := val + 1 } else none
      | _ => none
  | .join =>
      match s.main with
      | .joining i =>
          if s.threads i = .exited then some { s with main := joinLoop numthrds (i + 1) } else none
      | _ => none
  | .print =>
      match s.main with
      | .printing => some { s with main := .printed s.counter }
      | _ => none

def exitedCount (numthrds : Nat) (threads : Nat → Thread) : Nat :=
  ((Finset.range numthrds).filter fun t => threads t = .exited).card

/-- The threads that `main` has not created are absent, those that it has joined have stored, and
what it prints is in the range. -/
def Main.Fits (numthrds : Nat) (threads : Nat → Thread) : Main → Prop
  | .creating t => t < numthrds ∧ ∀ u, t ≤ u → threads u = .absent
  | .joining i => ∀ t < i, threads t = .exited
  | .printing => ∀ t < numthrds, threads t = .exited
  | .printed val => 1 ≤ val ∧ val ≤ numthrds
  | .failed => True

/-- What holds in every state. The counter, and what a thread has loaded of it, is at most the
number of stores. -/
structure Inv (numthrds : Nat) (s : State) : Prop where
  absent : ∀ t, numthrds ≤ t → s.threads t = .absent
  bound : s.counter ≤ exitedCount numthrds s.threads
  pending : ∀ t val, s.threads t = .loaded val → val ≤ exitedCount numthrds s.threads
  positive : ∀ t, s.threads t = .exited → 1 ≤ s.counter
  main : s.main.Fits numthrds s.threads

variable {numthrds t val i : Nat} {threads : Nat → Thread} {s s' : State}

theorem State.threads_move (s : State) (t : Nat) (x : Thread) (u : Nat) :
    (s.move t x).threads u = if u = t then x else s.threads u := Function.update_apply ..

/-! ## Steps -/

theorem step_cases {e : Event} (h : step numthrds s e = some s') :
    (∃ t, s.main = .creating t ∧
      s' = { s.move t .started with main := createLoop numthrds (t + 1) }) ∨
    (∃ t, s.main = .creating t ∧ s' = { s with main := .failed }) ∨
    (∃ t, s.threads t = .started ∧ s' = s.move t (.loaded s.counter)) ∨
    (∃ t val, s.threads t = .loaded val ∧
      s' = { s.move t .exited with counter := val + 1 }) ∨
    (∃ i, s.main = .joining i ∧ s.threads i = .exited ∧
      s' = { s with main := joinLoop numthrds (i + 1) }) ∨
    (s.main = .printing ∧ s' = { s with main := .printed s.counter }) := by
  cases e with
  | create =>
      simp only [step] at h
      split at h
      · next t hmain => exact .inl ⟨t, hmain, (Option.some.inj h).symm⟩
      · cases h
  | createFails =>
      simp only [step] at h
      split at h
      · next t hmain => exact .inr (.inl ⟨t, hmain, (Option.some.inj h).symm⟩)
      · cases h
  | load t =>
      simp only [step] at h
      split at h
      · next hstarted =>
        exact .inr (.inr (.inl ⟨t, hstarted.2, (Option.some.inj h).symm⟩))
      · cases h
  | store t =>
      simp only [step] at h
      split at h
      · next val hloaded =>
        split at h
        · exact .inr (.inr (.inr (.inl ⟨t, val, hloaded, (Option.some.inj h).symm⟩)))
        · cases h
      · cases h
  | join =>
      simp only [step] at h
      split at h
      · next i hmain =>
        split at h
        · next hexited =>
          exact .inr (.inr (.inr (.inr (.inl ⟨i, hmain, hexited, (Option.some.inj h).symm⟩))))
        · cases h
      · cases h
  | print =>
      simp only [step] at h
      split at h
      · next hmain => exact .inr (.inr (.inr (.inr (.inr ⟨hmain, (Option.some.inj h).symm⟩))))
      · cases h

/-! ## The number of stores -/

theorem exitedCount_le (numthrds : Nat) (threads : Nat → Thread) :
    exitedCount numthrds threads ≤ numthrds := by
  have hle := Finset.card_filter_le (Finset.range numthrds) fun t => threads t = .exited
  rwa [Finset.card_range] at hle

theorem exitedCount_move {x : Thread} (numthrds : Nat) (hold : s.threads t ≠ .exited)
    (hnew : x ≠ .exited) :
    exitedCount numthrds (s.move t x).threads = exitedCount numthrds s.threads := by
  have hsame : ∀ u, (s.move t x).threads u = .exited ↔ s.threads u = .exited := by
    intro u
    rw [State.threads_move]
    split
    · next hu => simp [hnew, hu, hold]
    · exact Iff.rfl
  rw [exitedCount, exitedCount]
  simp only [hsame]

theorem exitedCount_store (ht : t < numthrds) (hold : s.threads t ≠ .exited) :
    exitedCount numthrds (s.move t .exited).threads = exitedCount numthrds s.threads + 1 := by
  have hinsert : (Finset.range numthrds).filter (fun u => (s.move t .exited).threads u = .exited) =
      insert t ((Finset.range numthrds).filter fun u => s.threads u = .exited) := by
    ext u
    rw [Finset.mem_insert, Finset.mem_filter, Finset.mem_filter, Finset.mem_range,
      State.threads_move]
    by_cases hu : u = t
    · simp [hu, ht]
    · simp [hu]
  unfold exitedCount
  rw [hinsert, Finset.card_insert_of_notMem (by simp [hold])]

/-! ## The phases of main -/

theorem fits_joinLoop (h : ∀ t < i, threads t = .exited) :
    (joinLoop numthrds i).Fits numthrds threads := by
  rw [joinLoop]
  split
  · exact h
  · next hle => exact fun t ht => h t (by omega)

theorem fits_createLoop (h : ∀ u, t ≤ u → threads u = .absent) :
    (createLoop numthrds t).Fits numthrds threads := by
  rw [createLoop]
  split
  · next hlt => exact ⟨hlt, h⟩
  · exact fits_joinLoop fun t ht => absurd ht (Nat.not_lt_zero t)

theorem Main.Fits.move {m : Main} {x : Thread} (h : m.Fits numthrds s.threads)
    (habsent : s.threads t ≠ .absent) (hold : s.threads t ≠ .exited) :
    m.Fits numthrds (s.move t x).threads := by
  have hkeep : ∀ u, s.threads u = .exited → (s.move t x).threads u = .exited := by
    intro u hu
    have hne : u ≠ t := fun e => hold (e ▸ hu)
    rw [State.threads_move, if_neg hne, hu]
  cases m with
  | creating t' =>
      refine ⟨h.1, fun u hu => ?_⟩
      have hne : u ≠ t := fun e => habsent (e ▸ h.2 u hu)
      rw [State.threads_move, if_neg hne, h.2 u hu]
  | joining i => exact fun u hu => hkeep u (h u hu)
  | printing => exact fun u hu => hkeep u (h u hu)
  | printed val => exact h
  | failed => trivial

/-! ## The invariant -/

theorem inv_boot (numthrds : Nat) : Inv numthrds (boot numthrds) := by
  constructor
  case absent => exact fun _ _ => rfl
  case bound => exact Nat.zero_le _
  case pending =>
    intro t val h
    cases h
  case positive =>
    intro t h
    cases h
  case main => exact fits_createLoop fun _ _ => rfl

theorem Inv.lt (h : Inv numthrds s) (hpresent : s.threads t ≠ .absent) : t < numthrds := by
  by_contra hle
  exact hpresent (h.absent t (by omega))

theorem Inv.move {x : Thread} {m : Main} (h : Inv numthrds s) (ht : t < numthrds)
    (hold : s.threads t ≠ .exited) (hnew : x ≠ .exited)
    (hloaded : ∀ val, x = .loaded val → val ≤ exitedCount numthrds s.threads)
    (hmain : m.Fits numthrds (s.move t x).threads) :
    Inv numthrds { s.move t x with main := m } := by
  have hcount := exitedCount_move numthrds hold hnew
  constructor
  case absent =>
    intro u hu
    exact (State.threads_move s t x u).trans (by rw [if_neg (by omega), h.absent u hu])
  case bound => exact h.bound.trans hcount.ge
  case pending =>
    intro u val hval
    simp only [State.threads_move] at hval
    rw [hcount]
    split at hval
    · exact hloaded val hval
    · exact h.pending u val hval
  case positive =>
    intro u hu
    simp only [State.threads_move] at hu
    split at hu
    · exact absurd hu hnew
    · exact h.positive u hu
  case main => exact hmain

/-- A thread stores one more than it has loaded, and there is one store more. -/
theorem Inv.store (h : Inv numthrds s) (hloaded : s.threads t = .loaded val) :
    Inv numthrds { s.move t .exited with counter := val + 1 } := by
  have hold : s.threads t ≠ .exited := by simp [hloaded]
  have ht : t < numthrds := h.lt (by simp [hloaded])
  have hcount := exitedCount_store ht hold
  constructor
  case absent =>
    intro u hu
    exact (State.threads_move s t .exited u).trans (by rw [if_neg (by omega), h.absent u hu])
  case bound => exact (Nat.succ_le_succ (h.pending t val hloaded)).trans hcount.ge
  case pending =>
    intro u val' hval
    simp only [State.threads_move] at hval
    rw [hcount]
    split at hval
    · cases hval
    · exact (h.pending u val' hval).trans (Nat.le_succ _)
  case positive => exact fun _ _ => Nat.succ_pos val
  case main => exact h.main.move (by simp [hloaded]) hold

theorem Inv.step {e : Event} (hpos : 0 < numthrds) (h : Inv numthrds s)
    (hstep : step numthrds s e = some s') : Inv numthrds s' := by
  have hsame : ∀ m : Main, m.Fits numthrds s.threads → Inv numthrds { s with main := m } :=
    fun m hm => ⟨h.absent, h.bound, h.pending, h.positive, hm⟩
  have hmain := h.main
  rcases step_cases hstep with ⟨t, hm, rfl⟩ | ⟨t, hm, rfl⟩ | ⟨t, hstarted, rfl⟩ |
    ⟨t, val, hloaded, rfl⟩ | ⟨i, hm, hexited, rfl⟩ | ⟨hm, rfl⟩
  · rw [hm] at hmain
    have hold : s.threads t ≠ .exited := by simp [hmain.2 t le_rfl]
    refine h.move hmain.1 hold (by simp) (by simp) (fits_createLoop fun u hu => ?_)
    rw [State.threads_move, if_neg (by omega), hmain.2 u (by omega)]
  · exact hsame .failed trivial
  · have hold : s.threads t ≠ .exited := by simp [hstarted]
    have habsent : s.threads t ≠ .absent := by simp [hstarted]
    refine h.move (h.lt habsent) hold (by simp) (fun val hval => ?_) (hmain.move habsent hold)
    cases hval
    exact h.bound
  · exact h.store hloaded
  · rw [hm] at hmain
    refine hsame _ (fits_joinLoop fun t ht => ?_)
    rcases Nat.lt_succ_iff_lt_or_eq.mp ht with hlt | rfl
    · exact hmain t hlt
    · exact hexited
  · rw [hm] at hmain
    refine hsame _ ⟨h.positive 0 (hmain 0 hpos), h.bound.trans (exitedCount_le _ _)⟩

/-- In every state that is reached, and so in one in which `main` has printed. -/
theorem printed_bounds {events : List Event} (hpos : 0 < numthrds)
    (h : exec (step numthrds) (boot numthrds) events = some s) (hprinted : s.main = .printed val) :
    1 ≤ val ∧ val ≤ numthrds := by
  have hinv : Inv numthrds s :=
    exec_invariant (G := fun _ _ => True) (fun s e t hI _ hstep => hI.step hpos hstep)
      (inv_boot numthrds) (Along.of_mem (fun _ _ => trivial) _) h
  have hfits := hinv.main
  rw [hprinted] at hfits
  exact hfits

end KernelTrg.Counting
