import KernelTrg.Counting.Threads

/-!
# Schedules of the unlocked counter

A schedule for every value in the range: some threads load the counter before any of them stores
and count as one, and the others take turns.
-/

namespace KernelTrg.Counting

open Runs

/-- The first `k` threads are in one place, the others where they were. -/
def front (k : Nat) (x : Thread) (threads : Nat → Thread) : Nat → Thread :=
  fun t => if t < k then x else threads t

variable {numthrds m k t val : Nat} {x : Thread} {threads : Nat → Thread} {s : State}

theorem front_of_lt (h : t < k) : front k x threads t = x := if_pos h

theorem front_of_le (h : k ≤ t) : front k x threads t = threads t := if_neg (by omega)

theorem update_front (k : Nat) (x : Thread) (threads : Nat → Thread) :
    Function.update (front k x threads) k x = front (k + 1) x threads := by
  funext t
  rw [Function.update_apply]
  by_cases ht : t = k
  · rw [if_pos ht, front_of_lt (by omega)]
  · by_cases hlt : t < k
    · rw [if_neg ht, front_of_lt hlt, front_of_lt (by omega)]
    · rw [if_neg ht, front_of_le (by omega), front_of_le (by omega)]

def allStarted (numthrds : Nat) : Nat → Thread := front numthrds .started fun _ => .absent

/-- The first `m` threads have stored, after all of them had loaded 0. -/
def rushed (numthrds m : Nat) : Nat → Thread :=
  front m .exited (front m (.loaded 0) (allStarted numthrds))

/-! ## The phases of a schedule -/

theorem joinLoop_ne_failed (numthrds i : Nat) : joinLoop numthrds i ≠ .failed := by
  rw [joinLoop]
  split <;> simp

theorem exec_create (numthrds : Nat) :
    exec (step numthrds) (boot numthrds) ((List.range numthrds).flatMap fun _ => [.create]) =
      some ⟨0, allStarted numthrds, joinLoop numthrds 0⟩ := by
  have hrounds := exec_rounds (step numthrds)
    (fun k => ⟨0, front k .started fun _ => .absent, createLoop numthrds k⟩)
    (fun _ => [.create]) (m := numthrds) fun k hk => by
      have hmain : createLoop numthrds k = .creating k := if_pos hk
      simp only [exec, step, hmain, Option.bind_some]
      unfold State.move
      rw [update_front]
  have hend : createLoop numthrds numthrds = joinLoop numthrds 0 := if_neg (Nat.lt_irrefl _)
  rw [hend] at hrounds
  exact hrounds

/-- Some threads load the counter before any of them stores. -/
theorem exec_load (hm : m ≤ numthrds) :
    exec (step numthrds) ⟨0, allStarted numthrds, joinLoop numthrds 0⟩
      ((List.range m).flatMap fun t => [.load t]) =
      some ⟨0, front m (.loaded 0) (allStarted numthrds), joinLoop numthrds 0⟩ := by
  have hrounds := exec_rounds (step numthrds)
    (fun k => ⟨0, front k (.loaded 0) (allStarted numthrds), joinLoop numthrds 0⟩)
    (fun t => [.load t]) (m := m) fun k hk => by
      have hstarted : front k (.loaded 0) (allStarted numthrds) k = .started := by
        rw [front_of_le le_rfl, allStarted, front_of_lt (by omega)]
      have hguard : joinLoop numthrds 0 ≠ .failed ∧
          front k (.loaded 0) (allStarted numthrds) k = .started :=
        ⟨joinLoop_ne_failed numthrds 0, hstarted⟩
      simp only [exec, step, if_pos hguard, Option.bind_some]
      rw [State.move, update_front]
  exact hrounds

/-- All of them store 1. -/
theorem exec_store (hm : 0 < m) :
    exec (step numthrds) ⟨0, front m (.loaded 0) (allStarted numthrds), joinLoop numthrds 0⟩
      ((List.range m).flatMap fun t => [.store t]) =
      some ⟨1, rushed numthrds m, joinLoop numthrds 0⟩ := by
  have hrounds := exec_rounds (step numthrds)
    (fun k => ⟨min k 1, front k .exited (front m (.loaded 0) (allStarted numthrds)),
      joinLoop numthrds 0⟩)
    (fun t => [.store t]) (m := m) fun k hk => by
      have hloaded : front k .exited (front m (.loaded 0) (allStarted numthrds)) k = .loaded 0 := by
        rw [front_of_le le_rfl, front_of_lt hk]
      have hone : min (k + 1) 1 = 0 + 1 := by omega
      simp only [exec, step, hloaded, if_pos (joinLoop_ne_failed numthrds 0), Option.bind_some,
        hone]
      rw [State.move, update_front]
  have hone : min m 1 = 1 := by omega
  rw [hone] at hrounds
  exact hrounds

/-- The others take turns. -/
theorem exec_turns (hm : m ≤ numthrds) :
    exec (step numthrds) ⟨1, rushed numthrds m, joinLoop numthrds 0⟩
      ((List.range (numthrds - m)).flatMap fun j => [.load (m + j), .store (m + j)]) =
      some ⟨1 + (numthrds - m), front numthrds .exited (front m (.loaded 0) (allStarted numthrds)),
        joinLoop numthrds 0⟩ := by
  have hrounds := exec_rounds (step numthrds)
    (fun j => ⟨1 + j, front (m + j) .exited (front m (.loaded 0) (allStarted numthrds)),
      joinLoop numthrds 0⟩)
    (fun j => [.load (m + j), .store (m + j)]) (m := numthrds - m) fun j hj => by
      have hstarted : front (m + j) .exited (front m (.loaded 0) (allStarted numthrds)) (m + j) =
          .started := by
        rw [front_of_le le_rfl, front_of_le (by omega), allStarted, front_of_lt (by omega)]
      have hguard : joinLoop numthrds 0 ≠ .failed ∧
          front (m + j) .exited (front m (.loaded 0) (allStarted numthrds)) (m + j) = .started :=
        ⟨joinLoop_ne_failed numthrds 0, hstarted⟩
      simp only [exec, step, if_pos hguard, Option.bind_some, State.move, Function.update_self,
        if_pos (joinLoop_ne_failed numthrds 0), Function.update_idem]
      rw [update_front]
      rfl
  rw [Nat.add_sub_cancel' hm] at hrounds
  exact hrounds

theorem exec_join (numthrds val : Nat) (threads : Nat → Thread)
    (hexited : ∀ t < numthrds, threads t = .exited) :
    exec (step numthrds) ⟨val, threads, joinLoop numthrds 0⟩
      ((List.range numthrds).flatMap fun _ => [.join]) = some ⟨val, threads, .printing⟩ := by
  have hrounds := exec_rounds (step numthrds) (fun i => ⟨val, threads, joinLoop numthrds i⟩)
    (fun _ => [.join]) (m := numthrds) fun i hi => by
      have hmain : joinLoop numthrds i = .joining i := if_pos hi
      simp only [exec, step, hmain, if_pos (hexited i hi), Option.bind_some]
  have hend : joinLoop numthrds numthrds = .printing := if_neg (Nat.lt_irrefl _)
  rw [hend] at hrounds
  exact hrounds

/-- A schedule in which the first `m` threads count as one. -/
def schedule (numthrds m : Nat) : List Event :=
  ((List.range numthrds).flatMap fun _ => [.create]) ++
    (((List.range m).flatMap fun t => [.load t]) ++
      (((List.range m).flatMap fun t => [.store t]) ++
        (((List.range (numthrds - m)).flatMap fun j => [.load (m + j), .store (m + j)]) ++
          (((List.range numthrds).flatMap fun _ => [.join]) ++ [.print]))))

theorem exec_schedule (numthrds m : Nat) (hpos : 0 < m) (hm : m ≤ numthrds) :
    ∃ s, exec (step numthrds) (boot numthrds) (schedule numthrds m) = some s ∧
      s.main = .printed (1 + (numthrds - m)) := by
  have hjoin := exec_join numthrds (1 + (numthrds - m))
    (front numthrds .exited (front m (.loaded 0) (allStarted numthrds)))
    fun t ht => front_of_lt ht
  refine ⟨⟨1 + (numthrds - m), front numthrds .exited (front m (.loaded 0) (allStarted numthrds)),
    .printed (1 + (numthrds - m))⟩, ?_, rfl⟩
  unfold schedule
  rw [exec_append, exec_create, Option.bind_some, exec_append, exec_load hm,
    Option.bind_some, exec_append, exec_store hpos, Option.bind_some, exec_append, exec_turns hm,
    Option.bind_some, exec_append, hjoin, Option.bind_some]
  rfl

/-- The values that `main` prints are those from 1 to the number of threads. -/
theorem printed_iff (hpos : 0 < numthrds) (val : Nat) :
    (∃ events s, exec (step numthrds) (boot numthrds) events = some s ∧ s.main = .printed val) ↔
      1 ≤ val ∧ val ≤ numthrds := by
  constructor
  · intro hall
    rcases hall with ⟨events, s, h, hprinted⟩
    exact printed_bounds hpos h hprinted
  · intro h
    rcases h with ⟨hlow, hhigh⟩
    obtain ⟨s, h, hprinted⟩ := exec_schedule numthrds (numthrds - val + 1) (by omega) (by omega)
    have hval : 1 + (numthrds - (numthrds - val + 1)) = val := by omega
    exact ⟨_, s, h, by rw [hprinted, hval]⟩

/-- Three threads may count to 2, and not to 4. -/
theorem printed_iff_three :
    (∃ events s, exec (step 3) (boot 3) events = some s ∧ s.main = .printed 2) ∧
      ¬∃ events s, exec (step 3) (boot 3) events = some s ∧ s.main = .printed 4 :=
  ⟨(printed_iff (by decide) 2).mpr (by decide),
    fun h => absurd ((printed_iff (by decide) 4).mp h) (by decide)⟩

end KernelTrg.Counting
