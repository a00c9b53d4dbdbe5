import KernelTrg.TaskInfo.Listing

/-!
# The contract of read(2)

The reads of one open file should hand out the listing piece by piece, each read at
most what it was asked for and saying how much that was. The driver hands out the
whole listing at every read and returns the count it was asked for.
-/

namespace KernelTrg.TaskInfo

open Bytes

variable {tasks : List TaskStruct} {call : ReadCall} {calls : List ReadCall}
  {offp : Int64} {r : ReadResult} {rs : List ReadResult}

def delivered (rs : List ReadResult) (i : Nat) : List UInt8 :=
  (rs.take i).flatMap ReadResult.stored

/-- What the reads of one open file should do with a listing `text`. -/
structure ReadContract (text : List UInt8) (calls : List ReadCall) (rs : List ReadResult) :
    Prop where
  bounded : ∀ (i : Nat) (call : ReadCall) (r : ReadResult), calls[i]? = some call → rs[i]? = some r →
    r.stored.length ≤ call.count.toNat
  counted : ∀ (i : Nat) (r : ReadResult), rs[i]? = some r → r.ret.toInt = r.stored.length
  /-- Nothing is lost, repeated or out of order. -/
  inOrder : ∀ i, delivered rs i <+: text
  /-- As long as something is left, a read of at least one byte delivers some of it. -/
  progress : ∀ (i : Nat) (call : ReadCall) (r : ReadResult), calls[i]? = some call → rs[i]? = some r →
    delivered rs i ≠ text → 0 < call.count → r.stored ≠ []
  ended : ∀ (i : Nat) (r : ReadResult), rs[i]? = some r → delivered rs i = text → r.ret = 0

/-- The reads run to their ends, without a store outside the driver's buffer, and keep
the contract. -/
def ReadsKeepContract (tasks : List TaskStruct) (offp : Int64) (calls : List ReadCall) : Prop :=
  ∃ rs, taskinfoReads tasks offp calls = some rs ∧ ReadContract (listing tasks) calls rs

/-- The kernel lets a call through that delivers `n` bytes. -/
def ReadCall.Granted (call : ReadCall) (n : Nat) : Prop :=
  call.allocated = true ∧ ∀ k, call.faultAt = some k → n ≤ k

/-! ## One read -/

theorem copyToUser_append (faultAt : Option Nat) (text rest : List UInt8) :
    copyToUser faultAt (text ++ rest) text.length = copyToUser faultAt text text.length := by
  cases faultAt with
  | none => simp [copyToUser]
  | some k => simp [copyToUser, List.take_append_of_le_length]

theorem copyToUser_granted {n : Nat} (h : ∀ k, call.faultAt = some k → n ≤ k)
    (src : List UInt8) : copyToUser call.faultAt src n = (src.take n, 0) := by
  cases hf : call.faultAt with
  | none => rfl
  | some k =>
      have hk := h k hf
      simp only [copyToUser, Nat.min_eq_right hk, Nat.sub_eq_zero_of_le hk]

/-- A read that gets its buffer offers the caller the whole listing, whatever the count. -/
theorem taskinfoRead_allocated (hfit : (listing tasks).length < maxKbufLen)
    (halloc : call.allocated = true) :
    taskinfoRead tasks call offp =
      let (stored, left) := copyToUser call.faultAt (listing tasks) (listing tasks).length
      some ⟨stored, if left ≠ 0 then -efault else call.count.toInt64, offp⟩ := by
  obtain ⟨st, hst, hold⟩ := forEachProcess_fits (by rwa [length_listing] at hfit)
  have hlt : (listing tasks).length < 2 ^ 31 := hfit.trans (by decide)
  have hread : sizeT st.numread = (listing tasks).length := by
    rw [hold.numread, sizeT_ofNat hlt]
  simp only [taskinfoRead, halloc, if_true, hst, hread, hold.kbuf, copyToUser_append,
    Option.map_some]
  split <;> rfl

theorem taskinfoRead_granted (offp : Int64) (hfit : (listing tasks).length < maxKbufLen)
    (h : call.Granted (listing tasks).length) :
    taskinfoRead tasks call offp = some ⟨listing tasks, call.count.toInt64, offp⟩ := by
  rw [taskinfoRead_allocated hfit h.1, copyToUser_granted h.2]
  simp

theorem taskinfoRead_fits (halloc : call.allocated = true)
    (hr : taskinfoRead tasks call offp = some r) : (listing tasks).length < maxKbufLen := by
  by_contra hfull
  rw [length_listing] at hfull
  rw [taskinfoRead, if_pos halloc, forEachProcess_overrun (by omega)] at hr
  cases hr

/-- A read that is not let through returns an error, whatever it stored before. -/
theorem taskinfoRead_refused (h : ¬ call.Granted (listing tasks).length)
    (hr : taskinfoRead tasks call offp = some r) : r.ret = -enomem ∨ r.ret = -efault := by
  by_cases halloc : call.allocated = true
  · rw [taskinfoRead_allocated (taskinfoRead_fits halloc hr) halloc] at hr
    cases hf : call.faultAt with
    | none => exact absurd ⟨halloc, by simp [hf]⟩ h
    | some k =>
        have hlt : k < (listing tasks).length := by
          by_contra hle
          exact h ⟨halloc, fun k' hk' => by
            cases hf.symm.trans hk'
            omega⟩
        have hleft : (listing tasks).length - k ≠ 0 := by omega
        simp only [hf, copyToUser, if_pos hleft] at hr
        exact .inr (congrArg ReadResult.ret (Option.some.inj hr).symm)
  · rw [taskinfoRead, if_neg halloc] at hr
    exact .inl (congrArg ReadResult.ret (Option.some.inj hr).symm)

/-! ## The reads of one open file -/

theorem taskinfoReads_granted (hfit : (listing tasks).length < maxKbufLen)
    (h : ∀ call ∈ calls, call.Granted (listing tasks).length) :
    taskinfoReads tasks offp calls =
      some (calls.map fun call => ⟨listing tasks, call.count.toInt64, offp⟩) := by
  induction calls with
  | nil => rfl
  | cons call calls ih =>
      have hcall := taskinfoRead_granted offp hfit (h call (by simp))
      simp only [taskinfoReads, hcall, Option.bind_some, ih fun c hc => h c (by simp [hc]),
        Option.map_some, List.map_cons]

theorem taskinfoReads_getElem? (h : taskinfoReads tasks offp calls = some rs) {i : Nat}
    (hi : calls[i]? = some call) :
    ∃ offp' r, rs[i]? = some r ∧ taskinfoRead tasks call offp' = some r := by
  induction calls generalizing offp rs i with
  | nil => simp at hi
  | cons c calls ih =>
      obtain ⟨r, hr, hrest⟩ := Option.bind_eq_some_iff.mp h
      obtain ⟨rest, hend, rfl⟩ := Option.map_eq_some_iff.mp hrest
      cases i with
      | zero =>
          cases hi
          exact ⟨offp, r, rfl, hr⟩
      | succ i => exact ih hend hi

theorem toInt_toInt64_eq_iff {count : UInt64} {n : Nat} (hn : n < 2 ^ 63) :
    count.toInt64.toInt = n ↔ count.toNat = n := by
  have hlt := count.toNat_lt
  have hnat : count.toBitVec.toNat = count.toNat := rfl
  rw [← Int64.toInt_toBitVec, UInt64.toBitVec_toInt64, BitVec.toInt_eq_toNat_cond, hnat]
  split <;> omega

theorem listing_eq_nil_iff : listing tasks = [] ↔ tasks = [] := by
  cases tasks with
  | nil => simp [listing]
  | cons p ps =>
      have hwidth := (recordWidth_bounds p).1
      have hne : taskRecord p ≠ [] := by
        rw [← List.length_pos_iff, length_taskRecord]
        omega
      simp [listing, hne]

theorem ReadContract.whole (h : ReadContract (listing tasks) calls rs)
    (hrs : taskinfoReads tasks offp calls = some rs) (hmem : call ∈ calls) :
    (listing tasks).length < maxKbufLen ∧ call.Granted (listing tasks).length ∧
      call.count.toNat = (listing tasks).length := by
  obtain ⟨i, hi⟩ := List.mem_iff_getElem?.mp hmem
  obtain ⟨offp', r, hr, hread⟩ := taskinfoReads_getElem? hrs hi
  have hret := h.counted i r hr
  have hgranted : call.Granted (listing tasks).length := by
    by_contra hrefused
    rcases taskinfoRead_refused hrefused hread with he | he
    all_goals
      rw [he] at hret
      have hneg : (-enomem).toInt < 0 ∧ (-efault).toInt < 0 := by decide
      omega
  have hfit := taskinfoRead_fits hgranted.1 hread
  rw [taskinfoRead_granted offp' hfit hgranted] at hread
  cases hread
  exact ⟨hfit, hgranted, (toInt_toInt64_eq_iff (hfit.trans (by decide))).mp hret⟩

/-- Reads that deliver the whole listing each have delivered it several times over. -/
theorem delivered_whole (text : List UInt8) (f : ReadCall → Int64) (i : Nat) :
    delivered (calls.map fun call => ⟨text, f call, offp⟩) i =
      (List.replicate (min i calls.length) text).flatten := by
  induction calls generalizing i with
  | nil => simp [delivered]
  | cons call calls ih =>
      cases i with
      | zero => simp [delivered]
      | succ i =>
          have hrest := ih i
          simp only [delivered] at hrest ⊢
          simp only [List.map_cons, List.take_succ_cons, List.flatMap_cons, hrest,
            List.length_cons, Nat.succ_min_succ, List.replicate_succ, List.flatten_cons]

theorem readContract_of_whole (hfit : (listing tasks).length < maxKbufLen)
    (hcount : ∀ call ∈ calls, call.count.toNat = (listing tasks).length)
    (hfew : calls.length ≤ 1 ∨ tasks = []) :
    ReadContract (listing tasks) calls
      (calls.map fun call => ⟨listing tasks, call.count.toInt64, offp⟩) := by
  have hret {call : ReadCall} (hmem : call ∈ calls) :
      call.count.toInt64.toInt = (listing tasks).length :=
    (toInt_toInt64_eq_iff (hfit.trans (by decide))).mpr (hcount call hmem)
  -- with several calls there is nothing to deliver
  have hsecond {i : Nat} (hi : 1 < min i calls.length) : listing tasks = [] := by
    rcases hfew with hlen | rfl
    · omega
    · rfl
  constructor
  case bounded =>
    intro i call r hi hr
    simp only [List.getElem?_map, hi, Option.map_some, Option.some.injEq] at hr
    rw [← hr, hcount call (List.mem_of_getElem? hi)]
  case counted =>
    intro i r hr
    obtain ⟨call, hi, rfl⟩ := List.getElem?_map .. ▸ hr |> Option.map_eq_some_iff.mp
    exact hret (List.mem_of_getElem? hi)
  case inOrder =>
    intro i
    rw [delivered_whole]
    by_cases hi : 1 < min i calls.length
    · simp [hsecond hi]
    · obtain h0 | h1 : min i calls.length = 0 ∨ min i calls.length = 1 := by omega
      · simp [h0]
      · simp [h1]
  case progress =>
    intro i call r hi hr hleft hpos
    simp only [List.getElem?_map, hi, Option.map_some, Option.some.injEq] at hr
    rw [← hr]
    intro hnil
    rw [delivered_whole] at hleft
    simp only at hnil
    exact hleft (by simp [hnil])
  case ended =>
    intro i r hr hdone
    obtain ⟨call, hi, rfl⟩ := List.getElem?_map .. ▸ hr |> Option.map_eq_some_iff.mp
    have hlt : i < calls.length := (List.getElem?_eq_some_iff.mp hi).1
    have hnil : listing tasks = [] := by
      by_cases htwo : 1 < calls.length
      · exact hsecond (i := calls.length) (by omega)
      · rw [delivered_whole, show min i calls.length = 0 by omega] at hdone
        simpa using hdone.symm
    have hzero := hret (List.mem_of_getElem? hi)
    rw [hnil] at hzero
    exact Int64.toInt_inj.mp hzero

/-- The reads keep the contract exactly where the listing fits the driver's buffer, every
read is let through and asks for exactly the length of the listing, and no read follows
the first one unless there is no process to list. -/
theorem reads_keep_contract_iff (tasks : List TaskStruct) (offp : Int64)
    (calls : List ReadCall) :
    ReadsKeepContract tasks offp calls ↔
      calls = [] ∨ ((tasks.map recordWidth).sum < maxKbufLen ∧
        (∀ call ∈ calls, call.Granted (tasks.map recordWidth).sum ∧
          call.count.toNat = (tasks.map recordWidth).sum) ∧
        (calls.length ≤ 1 ∨ tasks = [])) := by
  rw [← length_listing]
  constructor
  · intro hall
    rcases hall with ⟨rs, hrs, h⟩
    by_cases hnone : calls = []
    · exact .inl hnone
    obtain ⟨first, hfirst⟩ := List.exists_mem_of_ne_nil calls hnone
    have hfit := (h.whole hrs hfirst).1
    have hall : ∀ call ∈ calls, call.Granted (listing tasks).length := fun call hmem =>
      (h.whole hrs hmem).2.1
    refine .inr ⟨hfit, fun call hmem => (h.whole hrs hmem).2, ?_⟩
    by_contra hmany
    obtain ⟨htwo, htasks⟩ := not_or.mp hmany
    -- the second read delivers the listing again
    rw [taskinfoReads_granted hfit hall] at hrs
    cases hrs
    have hpre := (h.inOrder 2).length_le
    rw [delivered_whole, show min 2 calls.length = 2 by omega] at hpre
    have hpos : 0 < (listing tasks).length :=
      List.length_pos_iff.mpr fun hnil => htasks (listing_eq_nil_iff.mp hnil)
    simp only [List.length_flatten, List.map_replicate, List.sum_replicate_nat] at hpre
    omega
  · intro h
    rcases h with rfl | ⟨hfit, hall, hfew⟩
    · exact ⟨[], rfl, by constructor <;> simp [delivered]⟩
    · exact ⟨_, taskinfoReads_granted hfit fun call hmem => (hall call hmem).1,
        readContract_of_whole hfit (fun call hmem => (hall call hmem).2) hfew⟩

def tenBytes : ReadCall := ⟨10, true, none⟩

/-- A listing of one process is 49 bytes long, and a read of 10 stores them all. -/
theorem ten_byte_read_overfills :
    taskinfoRead [rootShell 1] tenBytes 0 = some ⟨taskRecord (rootShell 1), 10, 0⟩ ∧
      (taskRecord (rootShell 1)).length = 49 ∧
      ¬ ReadsKeepContract [rootShell 1] 0 [tenBytes] := by
  have hlen : (taskRecord (rootShell 1)).length = 49 := by decide
  have hread : taskinfoRead [rootShell 1] tenBytes 0 =
      some ⟨taskRecord (rootShell 1), 10, 0⟩ := by
    have hlisting : listing [rootShell 1] = taskRecord (rootShell 1) := by simp [listing]
    rw [taskinfoRead_granted 0 (by rw [hlisting, hlen]; decide) ⟨rfl, by simp [tenBytes]⟩,
      hlisting]
    rfl
  refine ⟨hread, hlen, ?_⟩
  intro hall
  rcases hall with ⟨rs, hrs, h⟩
  simp only [taskinfoReads, hread, Option.bind_some, Option.map_some, Option.some.injEq] at hrs
  subst hrs
  have hbound := h.bounded 0 tenBytes _ rfl rfl
  simp only [hlen] at hbound
  exact absurd hbound (by decide)

end KernelTrg.TaskInfo
