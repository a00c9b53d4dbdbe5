import KernelTrg.Lib.Runs
import Mathlib.Data.List.Nodup
import Mathlib.Data.List.Pairwise

/-!
# The task list and its life cycle

The list that `for_each_process_thread` goes through: processes in the order of their
creation, each with its group leader and its other threads. A task that exits loses its
`mm` and stays on the list until it is reaped, a leader until it is the last of its group.
-/

namespace KernelTrg.ThreadShow

open Runs

/-- One more than the largest pid, `PID_MAX_LIMIT`. -/
abbrev pidMax : Nat := 4 * 1024 * 1024

@[ext]
structure Comm where
  text : List UInt8
  length_lt : text.length < 16
  nul_notMem : 0 ∉ text
deriving Repr

instance : DecidableEq Comm := fun a b => decidable_of_iff (a.text = b.text) Comm.ext_iff.symm

/-- A thread; `mm` is whether `t->mm` is not NULL. -/
structure Task where
  pid : Nat
  comm : Comm
  mm : Bool
  exited : Bool
deriving DecidableEq, Repr

/-- A process on the list; `nrThreads` is `signal->nr_threads`, and `kernel` whether it was
created as a kernel thread. -/
structure Group where
  leader : Task
  others : List Task
  nrThreads : Nat
  kernel : Bool
deriving DecidableEq, Repr

namespace Group

def tgid (g : Group) : Nat := g.leader.pid

def threads (g : Group) : List Task := g.leader :: g.others

def pids (g : Group) : List Nat := g.threads.map (·.pid)

def live (g : Group) : Nat := g.threads.countP (! ·.exited)

def Runs (g : Group) (pid : Nat) : Prop :=
  g.kernel = false ∧ ∃ t ∈ g.threads, t.pid = pid ∧ t.exited = false

instance (g : Group) (pid : Nat) : Decidable (g.Runs pid) := inferInstanceAs (Decidable (_ ∧ _))

def single (pid : Nat) (comm : Comm) (kernel : Bool) : Group :=
  ⟨⟨pid, comm, !kernel, false⟩, [], 1, kernel⟩

def addThread (g : Group) (pid : Nat) (comm : Comm) : Group :=
  { g with others := g.others ++ [⟨pid, comm, true, false⟩], nrThreads := g.nrThreads + 1 }

end Group

def Task.exit (pid : Nat) (t : Task) : Task :=
  if t.pid = pid then { t with mm := false, exited := true } else t

namespace Group

def exit (pid : Nat) (g : Group) : Group :=
  { g with leader := g.leader.exit pid, others := g.others.map (·.exit pid) }

/-- The exited thread with the pid may be released: a leader only as the last of its group. -/
def Reapable (g : Group) (pid : Nat) : Prop :=
  (g.leader.pid = pid ∧ g.leader.exited = true ∧ g.others = []) ∨
    ∃ t ∈ g.others, t.pid = pid ∧ t.exited = true

instance (g : Group) (pid : Nat) : Decidable (g.Reapable pid) :=
  inferInstanceAs (Decidable (_ ∨ _))

/-- `release_task`: the group goes with its leader. -/
def reap (pid : Nat) (g : Group) : Option Group :=
  if g.leader.pid = pid then none
  else if ∃ t ∈ g.others, t.pid = pid then
    some { g with others := g.others.eraseP (·.pid = pid), nrThreads := g.nrThreads - 1 }
  else some g

end Group

inductive Event where
  | fork (parent pid : Nat) (comm : Comm)
  | clone (caller pid : Nat) (comm : Comm)
  | kthread (pid : Nat) (comm : Comm)
  | exit (pid : Nat)
  | reap (pid : Nat)
deriving DecidableEq, Repr

def Fresh (groups : List Group) (pid : Nat) : Prop := pid < pidMax ∧ ∀ g ∈ groups, pid ∉ g.pids

instance (groups : List Group) (pid : Nat) : Decidable (Fresh groups pid) :=
  inferInstanceAs (Decidable (_ ∧ _))

def step (groups : List Group) : Event → Option (List Group)
  | .fork parent pid comm =>
      if Fresh groups pid ∧ ∃ g ∈ groups, g.Runs parent then
        some (groups ++ [Group.single pid comm false])
      else none
  | .clone caller pid comm =>
      if Fresh groups pid ∧ ∃ g ∈ groups, g.Runs caller then
        some (groups.map fun g => if g.Runs caller then g.addThread pid comm else g)
      else none
  | .kthread pid comm =>
      if Fresh groups pid then some (groups ++ [Group.single pid comm true]) else none
  | .exit pid =>
      if ∃ g ∈ groups, ∃ t ∈ g.threads, t.pid = pid ∧ t.exited = false then
        some (groups.map (·.exit pid))
      else none
  | .reap pid =>
      if ∃ g ∈ groups, g.Reapable pid then some (groups.filterMap (·.reap pid)) else none

def boot : List Group := [Group.single 1 ⟨[105, 110, 105, 116], by decide, by decide⟩ false]

/-! ## What holds on every list -/

namespace Group

/-- The pids of a group differ, it counts its threads, and just the threads of a user process
that have not exited have an `mm`. -/
structure Ok (g : Group) : Prop where
  nodup : g.pids.Nodup
  count : g.nrThreads = g.threads.length
  mm : ∀ t ∈ g.threads, t.mm = (!g.kernel && !t.exited)
  bound : ∀ t ∈ g.threads, t.pid < pidMax

variable {g g' : Group} {pid : Nat} {comm : Comm}

theorem mem_pids : pid ∈ g.pids ↔ ∃ t ∈ g.threads, t.pid = pid := List.mem_map

theorem Ok.single (hpid : pid < pidMax) (kernel : Bool) : (single pid comm kernel).Ok where
  nodup := by simp [pids, threads, Group.single]
  count := rfl
  mm := by simp [threads, Group.single]
  bound := by simpa [threads, Group.single] using hpid

theorem threads_addThread :
    (g.addThread pid comm).threads = g.threads ++ [⟨pid, comm, true, false⟩] := rfl

theorem pids_addThread : (g.addThread pid comm).pids = g.pids ++ [pid] := by
  unfold pids
  rw [threads_addThread, List.map_append]
  rfl

theorem Ok.addThread (h : g.Ok) (hkernel : g.kernel = false) (hpid : pid < pidMax)
    (hfresh : pid ∉ g.pids) : (g.addThread pid comm).Ok where
  nodup := by
    rw [pids_addThread, ← List.concat_eq_append]
    exact h.nodup.concat hfresh
  count := by
    rw [threads_addThread, List.length_append, ← h.count]
    rfl
  mm := by
    intro t ht
    rw [threads_addThread, List.mem_append, List.mem_singleton] at ht
    rcases ht with ht | rfl
    · exact h.mm t ht
    · simp [Group.addThread, hkernel]
  bound := by
    intro t ht
    rw [threads_addThread, List.mem_append, List.mem_singleton] at ht
    rcases ht with ht | rfl
    · exact h.bound t ht
    · exact hpid

theorem threads_exit : (g.exit pid).threads = g.threads.map (·.exit pid) := rfl

theorem pids_exit (g : Group) (pid : Nat) : (g.exit pid).pids = g.pids := by
  unfold pids
  rw [threads_exit, List.map_map]
  apply List.map_congr_left
  intro t _
  simp only [Function.comp_apply, Task.exit]
  split <;> rfl

theorem Ok.exit (h : g.Ok) (pid : Nat) : (g.exit pid).Ok where
  nodup := by
    rw [pids_exit]
    exact h.nodup
  count := by
    rw [threads_exit, List.length_map]
    exact h.count
  mm := by
    intro t ht
    rw [threads_exit, List.mem_map] at ht
    obtain ⟨t', ht', rfl⟩ := ht
    unfold Task.exit
    split
    · simp
    · exact h.mm t' ht'
  bound := by
    intro t ht
    have hmem : t.pid ∈ g.pids := by
      rw [← pids_exit g pid]
      exact mem_pids.mpr ⟨t, ht, rfl⟩
    obtain ⟨t', ht', heq⟩ := mem_pids.mp hmem
    rw [← heq]
    exact h.bound t' ht'

/-- A group that is not released as a whole keeps some of its threads, and its leader. -/
theorem reap_spec (h : g.Ok) (hreap : g.reap pid = some g') :
    g'.Ok ∧ g'.threads.Sublist g.threads := by
  unfold reap at hreap
  split at hreap
  · cases hreap
  · split at hreap
    · next hlead hmem =>
      cases hreap
      have hsub : (g.others.eraseP (·.pid = pid)).Sublist g.others := List.eraseP_sublist
      have hthreads := hsub.cons_cons g.leader
      obtain ⟨t, ht, htp⟩ := hmem
      refine ⟨⟨?_, ?_, ?_, ?_⟩, hthreads⟩
      · exact h.nodup.sublist (hthreads.map _)
      · have hlen := List.length_eraseP_of_mem (p := (·.pid = pid)) ht (by simpa using htp)
        have hpos := List.length_pos_of_mem ht
        have hcount := h.count
        simp only [threads, List.length_cons] at hcount ⊢
        omega
      · exact fun t' ht' => h.mm t' (hthreads.subset ht')
      · exact fun t' ht' => h.bound t' (hthreads.subset ht')
    · cases hreap
      exact ⟨h, List.Sublist.refl _⟩

end Group

/-- Every group is in order, and no pid is used in two of them. -/
structure Valid (groups : List Group) : Prop where
  ok : ∀ g ∈ groups, g.Ok
  apart : groups.Pairwise fun g g' => g.pids.Disjoint g'.pids

variable {groups groups' : List Group} {e : Event} {events : List Event} {pid : Nat} {comm : Comm}

theorem valid_boot : Valid boot where
  ok := by
    intro g hg
    rw [List.mem_singleton.mp hg]
    exact Group.Ok.single (by decide) false
  apart := List.pairwise_singleton _ _

theorem Valid.addGroup (h : Valid groups) (hfresh : Fresh groups pid) (kernel : Bool) :
    Valid (groups ++ [Group.single pid comm kernel]) where
  ok := by
    intro g hg
    rw [List.mem_append, List.mem_singleton] at hg
    rcases hg with hg | rfl
    · exact h.ok g hg
    · exact Group.Ok.single hfresh.1 kernel
  apart := by
    rw [List.pairwise_append]
    refine ⟨h.apart, List.pairwise_singleton _ _, fun g hg g' hg' => ?_⟩
    rw [List.mem_singleton.mp hg']
    intro x hx hx'
    have hpid : x = pid := by simpa [Group.pids, Group.threads, Group.single] using hx'
    exact hfresh.2 g hg (hpid ▸ hx)

theorem mem_pids_clone {g : Group} {caller x : Nat}
    (hx : x ∈ (if g.Runs caller then g.addThread pid comm else g).pids) :
    x ∈ g.pids ∨ x = pid ∧ caller ∈ g.pids := by
  split at hx
  · next hruns =>
    rw [Group.pids_addThread, List.mem_append, List.mem_singleton] at hx
    obtain ⟨-, t, ht, htp, -⟩ := hruns
    exact hx.imp_right fun hpid => ⟨hpid, Group.mem_pids.mpr ⟨t, ht, htp⟩⟩
  · exact .inl hx

theorem Valid.clone (h : Valid groups) (hfresh : Fresh groups pid) (caller : Nat) :
    Valid (groups.map fun g => if g.Runs caller then g.addThread pid comm else g) where
  ok := by
    intro g hg
    obtain ⟨g', hg', rfl⟩ := List.mem_map.mp hg
    split
    · next hruns => exact (h.ok g' hg').addThread hruns.1 hfresh.1 (hfresh.2 g' hg')
    · exact h.ok g' hg'
  apart := by
    rw [List.pairwise_map]
    apply h.apart.imp_of_mem
    intro g g' hg hg' hdisj x hx hx'
    rcases mem_pids_clone hx with hold | ⟨rfl, hcaller⟩
    · rcases mem_pids_clone hx' with hold' | ⟨rfl, -⟩
      · exact hdisj hold hold'
      · exact hfresh.2 g hg hold
    · rcases mem_pids_clone hx' with hold' | ⟨-, hcaller'⟩
      · exact hfresh.2 g' hg' hold'
      · exact hdisj hcaller hcaller'

theorem Valid.exit (h : Valid groups) (pid : Nat) : Valid (groups.map (·.exit pid)) where
  ok := by
    intro g hg
    obtain ⟨g', hg', rfl⟩ := List.mem_map.mp hg
    exact (h.ok g' hg').exit pid
  apart := by
    rw [List.pairwise_map]
    simp only [Group.pids_exit]
    exact h.apart

theorem Valid.reap (h : Valid groups) (pid : Nat) : Valid (groups.filterMap (·.reap pid)) where
  ok := by
    intro g hg
    obtain ⟨g', hg', hreap⟩ := List.mem_filterMap.mp hg
    exact (Group.reap_spec (h.ok g' hg') hreap).1
  apart := by
    rw [List.pairwise_filterMap]
    apply h.apart.imp_of_mem
    intro g g' hg hg' hdisj g₁ hg₁ g₁' hg₁' x hx hx'
    have hsub := ((Group.reap_spec (h.ok g hg) hg₁).2.map (·.pid)).subset
    have hsub' := ((Group.reap_spec (h.ok g' hg') hg₁').2.map (·.pid)).subset
    exact hdisj (hsub hx) (hsub' hx')

theorem Valid.step (h : Valid groups) (hstep : step groups e = some groups') : Valid groups' := by
  cases e with
  | fork parent pid comm =>
      obtain ⟨hguard, hgroups⟩ := Option.ite_none_right_eq_some.mp hstep
      cases hgroups
      exact h.addGroup hguard.1 false
  | clone caller pid comm =>
      obtain ⟨hguard, hgroups⟩ := Option.ite_none_right_eq_some.mp hstep
      cases hgroups
      exact h.clone hguard.1 caller
  | kthread pid comm =>
      obtain ⟨hfresh, hgroups⟩ := Option.ite_none_right_eq_some.mp hstep
      cases hgroups
      exact h.addGroup hfresh true
  | exit pid =>
      obtain ⟨-, hgroups⟩ := Option.ite_none_right_eq_some.mp hstep
      cases hgroups
      exact h.exit pid
  | reap pid =>
      obtain ⟨-, hgroups⟩ := Option.ite_none_right_eq_some.mp hstep
      cases hgroups
      exact h.reap pid

theorem valid_of_exec (h : exec step boot events = some groups) : Valid groups := by
  have hguard : Along step (fun _ _ => True) boot events := Along.of_mem (fun _ _ => trivial) boot
  exact exec_invariant (fun _ _ _ hs _ hstep => hs.step hstep) valid_boot hguard h

end KernelTrg.ThreadShow
