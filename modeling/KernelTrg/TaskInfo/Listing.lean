import KernelTrg.TaskInfo.Driver
import Mathlib.Algebra.Order.BigOperators.Group.List

/-!
# The loop over the processes

The buffer holds the records so far, followed by zeros, as long as they and one NUL
fit in it. How many processes that is depends on the widths of their numbers.
-/

namespace KernelTrg.TaskInfo

open Runs Bytes

variable {st : Loop} {text : List UInt8} {p : TaskStruct} {tasks : List TaskStruct}

/-- The buffer holds `text`, zeros fill the rest of it and `numread` counts the text. -/
structure Holds (st : Loop) (text : List UInt8) : Prop where
  kbuf : st.kbuf = text ++ List.replicate (maxKbufLen - text.length) 0
  numread : st.numread = Int32.ofNat text.length
  fits : text.length < maxKbufLen
  nul : 0 ∉ text

theorem Holds.init : Holds Loop.init [] where
  kbuf := rfl
  numread := rfl
  fits := by decide
  nul := by simp

theorem Holds.cstring_kbuf (h : Holds st text) : cstring st.kbuf = text := by
  have hroom : maxKbufLen - text.length = maxKbufLen - text.length - 1 + 1 := by
    have := h.fits
    omega
  rw [h.kbuf, hroom, List.replicate_succ, cstring_append_nul h.nul]

theorem Holds.length_kbuf (h : Holds st text) : st.kbuf.length = maxKbufLen := by
  have := h.fits
  rw [h.kbuf, List.length_append, List.length_replicate]
  omega

theorem sizeT_ofNat {n : Nat} (hn : n < 2 ^ 31) : sizeT (Int32.ofNat n) = n := by
  unfold sizeT
  rw [Int32.toInt_ofNat_of_lt hn]
  omega

theorem cstring_snprintf (p : TaskStruct) :
    cstring (snprintf (List.replicate tmpLen 0) tmpLen (taskRecord p)).1 = taskRecord p := by
  have hwidth := (recordWidth_bounds p).2
  have htake : (taskRecord p).take (tmpLen - 1) = taskRecord p := by
    apply List.take_of_length_le
    simp only [length_taskRecord, tmpLen]
    omega
  simp only [snprintf, store_zero, htake, List.append_assoc, List.singleton_append]
  exact cstring_append_nul (nul_notMem_taskRecord p) _

/-- What the body of the loop does, the buffer's end being its only test. -/
theorem Holds.appendRecord_eq (h : Holds st text) (p : TaskStruct) :
    appendRecord st p =
      if text.length + recordWidth p < maxKbufLen then
        some ⟨store 0 st.kbuf text.length (taskRecord p ++ [0]),
          st.numread + Int32.ofNat (recordWidth p)⟩
      else none := by
  have hwidth := (recordWidth_bounds p).2
  have hnum : sizeT (Int32.ofNat (recordWidth p)) = recordWidth p :=
    sizeT_ofNat (by omega)
  have htake : (taskRecord p).take (recordWidth p) = taskRecord p :=
    List.take_of_length_le (by simp)
  have hsnd : (snprintf (List.replicate tmpLen 0) tmpLen (taskRecord p)).2 =
      Int32.ofNat (recordWidth p) := by simp [snprintf]
  simp only [appendRecord, strncat, hsnd, cstring_snprintf, h.cstring_kbuf, h.length_kbuf, hnum,
    htake, length_taskRecord]
  split <;> rfl

theorem Holds.step (h : Holds st text) (hfit : text.length + recordWidth p < maxKbufLen) :
    ∃ st', appendRecord st p = some st' ∧ Holds st' (text ++ taskRecord p) := by
  refine ⟨_, (h.appendRecord_eq p).trans (if_pos hfit), ?_, ?_, ?_, ?_⟩
  · -- the NUL that `strncat` stores is the first of the zeros
    have hroom : maxKbufLen - text.length - (recordWidth p + 1) + 1 =
        maxKbufLen - (text.length + recordWidth p) := by omega
    simp only [h.kbuf, store_append, List.drop_replicate, List.length_append, length_taskRecord,
      List.length_singleton, List.append_assoc, List.singleton_append, ← List.replicate_succ,
      hroom]
  · simp only [h.numread, List.length_append, length_taskRecord, Int32.ofNat_add]
  · simpa using hfit
  · simp [h.nul, nul_notMem_taskRecord]

theorem Holds.run (h : Holds st text) (tasks : List TaskStruct)
    (hfit : text.length + (tasks.map recordWidth).sum < maxKbufLen) :
    ∃ st', exec appendRecord st tasks = some st' ∧ Holds st' (text ++ listing tasks) := by
  induction tasks generalizing st text with
  | nil => exact ⟨st, rfl, by simpa [listing] using h⟩
  | cons p ps ih =>
      simp only [List.map_cons, List.sum_cons] at hfit
      obtain ⟨m, hm, hmid⟩ := h.step (p := p) (by omega)
      obtain ⟨t, ht, hend⟩ := ih hmid (by simp only [List.length_append, length_taskRecord]; omega)
      refine ⟨t, (exec_cons_eq_some _).mpr ⟨m, hm, ht⟩, ?_⟩
      simpa [listing] using hend

/-- Where the records do not fit, some `strncat` stores outside the buffer. -/
theorem Holds.overrun (h : Holds st text)
    (hfull : maxKbufLen ≤ text.length + (tasks.map recordWidth).sum) :
    exec appendRecord st tasks = none := by
  induction tasks generalizing st text with
  | nil =>
      have := h.fits
      simp only [List.map_nil, List.sum_nil] at hfull
      omega
  | cons p ps ih =>
      simp only [List.map_cons, List.sum_cons] at hfull
      by_cases hfit : text.length + recordWidth p < maxKbufLen
      · obtain ⟨m, hm, hmid⟩ := h.step hfit
        rw [exec_cons, hm]
        exact ih hmid (by simp only [List.length_append, length_taskRecord]; omega)
      · rw [exec_cons, h.appendRecord_eq, if_neg hfit]
        rfl

theorem forEachProcess_fits (hfit : (tasks.map recordWidth).sum < maxKbufLen) :
    ∃ st, forEachProcess tasks = some st ∧ Holds st (listing tasks) := by
  obtain ⟨st, hst, h⟩ := Holds.init.run tasks (by simpa using hfit)
  exact ⟨st, hst, by simpa using h⟩

theorem forEachProcess_overrun (hfull : maxKbufLen ≤ (tasks.map recordWidth).sum) :
    forEachProcess tasks = none :=
  Holds.init.overrun (by simpa using hfull)

theorem Holds.toInt_numread (h : Holds st text) : st.numread.toInt = text.length := by
  have hlt : text.length < 2 ^ 31 := h.fits.trans (by decide)
  rw [h.numread, Int32.toInt_ofNat_of_lt hlt]

/-- However narrow their numbers, 418 processes do not. -/
theorem forEachProcess_of_many (hlen : 418 ≤ tasks.length) : forEachProcess tasks = none := by
  apply forEachProcess_overrun
  have hsum : tasks.length * 49 ≤ (tasks.map recordWidth).sum := by
    simpa using List.card_nsmul_le_sum (tasks.map recordWidth) 49 (by
      simp only [List.mem_map]
      intro _ h
      rcases h with ⟨p, -, rfl⟩
      exact (recordWidth_bounds p).1)
  simp only [maxKbufLen]
  omega

/-- The loop stays inside the buffer and leaves in it one record per process, in order,
with `numread` their length. -/
def Collects (tasks : List TaskStruct) : Prop :=
  ∃ st, forEachProcess tasks = some st ∧
    st.kbuf = listing tasks ++ List.replicate (maxKbufLen - (listing tasks).length) 0 ∧
    st.numread.toInt = (listing tasks).length

/-- The loop does its work exactly for the task lists whose records, by the widths of
their numbers, leave room for one NUL. -/
theorem collects_iff (tasks : List TaskStruct) :
    Collects tasks ↔ (tasks.map recordWidth).sum < maxKbufLen := by
  constructor
  · intro h
    rcases h with ⟨st, hst, -⟩
    by_contra hfull
    rw [forEachProcess_overrun (by omega)] at hst
    cases hst
  · intro hfit
    obtain ⟨st, hst, h⟩ := forEachProcess_fits hfit
    exact ⟨st, hst, h.kbuf, h.toInt_numread⟩

def rootShell (pid : Nat) : TaskStruct where
  comm := [115, 104]
  tgid := Int32.ofNat pid
  pid := Int32.ofNat pid
  cred := ⟨0, 0⟩
  comm_length := by decide
  comm_nul := by decide

def busyServer : List TaskStruct := (List.range 418).map fun i => rootShell (i + 1)

theorem busyServer_overruns : forEachProcess busyServer = none ∧ ¬ Collects busyServer := by
  have hnone : forEachProcess busyServer = none := forEachProcess_of_many (by simp [busyServer])
  refine ⟨hnone, ?_⟩
  intro h
  rcases h with ⟨st, hst, -⟩
  rw [hnone] at hst
  cases hst

end KernelTrg.TaskInfo
