import KernelTrg.Lib.Bytes
import KernelTrg.Lib.Runs

/-!
# The task-listing driver

`taskinfo_read` of the `foreach` driver: one formatted record per process of the
task list, appended to a buffer of fixed size, and the buffer copied to the caller.
`none` is a store outside the buffer.
-/

namespace KernelTrg.TaskInfo

open Runs Bytes

structure Cred where
  uid : UInt32
  euid : UInt32
deriving DecidableEq, Repr

/-- The fields of a process that a record shows; `comm` is a string of its array of 16. -/
structure TaskStruct where
  comm : List UInt8
  tgid : Int32
  pid : Int32
  cred : Cred
  comm_length : comm.length < 16
  comm_nul : 0 ∉ comm
deriving DecidableEq, Repr

abbrev maxKbufLen : Nat := 20 * 1024

abbrev tmpLen : Nat := 128

/-- `"%-16s|%7d|%7d|%7u|%7u\n"` of a process. -/
def taskRecord (p : TaskStruct) : List UInt8 :=
  p.comm.rightpad 16 32 ++ 124 :: (signedDecimal p.tgid.toInt).leftpad 7 32 ++
    124 :: (signedDecimal p.pid.toInt).leftpad 7 32 ++
    124 :: (decimal p.cred.uid.toNat).leftpad 7 32 ++
    124 :: (decimal p.cred.euid.toNat).leftpad 7 32 ++ [10]

def listing (tasks : List TaskStruct) : List UInt8 := tasks.flatMap taskRecord

/-- `snprintf(buf, size, …)` of the formatted `text`: the buffer afterwards and the result. -/
def snprintf (buf : List UInt8) (size : Nat) (text : List UInt8) : List UInt8 × Int32 :=
  (store 0 buf 0 (text.take (size - 1) ++ [0]), Int32.ofNat text.length)

def sizeT (n : Int32) : Nat := (n.toInt % 2 ^ 64).toNat

/-- `strncat`: at most `n` bytes of `src` and a NUL, stored over the NUL that ends `dst`. -/
def strncat (dst src : List UInt8) (n : Nat) : Option (List UInt8) :=
  let s := (cstring src).take n
  let k := (cstring dst).length
  if k + s.length < dst.length then some (store 0 dst k (s ++ [0])) else none

structure Loop where
  kbuf : List UInt8
  numread : Int32
deriving DecidableEq, Repr

/-- `kzalloc(MAXKBUF_LEN)` and `numread = 0`. -/
def Loop.init : Loop := ⟨List.replicate maxKbufLen 0, 0⟩

/-- The body of the loop, for the process `p`. -/
def appendRecord (st : Loop) (p : TaskStruct) : Option Loop :=
  let (tmp, num) := snprintf (List.replicate tmpLen 0) tmpLen (taskRecord p)
  (strncat st.kbuf tmp (sizeT num)).map fun kbuf => ⟨kbuf, st.numread + num⟩

def forEachProcess (tasks : List TaskStruct) : Option Loop :=
  exec appendRecord Loop.init tasks

/-- A call of `read(2)` and what the kernel answers inside it. -/
structure ReadCall where
  count : UInt64
  /-- Whether `kzalloc` succeeds. -/
  allocated : Bool
  /-- The first byte of the caller's buffer that cannot be written, if any. -/
  faultAt : Option Nat
deriving DecidableEq, Repr

/-- What a call stored in the caller's buffer, what it returned and the file offset after it. -/
structure ReadResult where
  stored : List UInt8
  ret : Int64
  offp : Int64
deriving DecidableEq, Repr

abbrev enomem : Int64 := 12
abbrev efault : Int64 := 14

/-- `copy_to_user`: the bytes stored and how many could not be. -/
def copyToUser (faultAt : Option Nat) (src : List UInt8) (n : Nat) : List UInt8 × Nat :=
  match faultAt with
  | none => (src.take n, 0)
  | some k => (src.take (min k n), n - k)

def taskinfoRead (tasks : List TaskStruct) (call : ReadCall) (offp : Int64) :
    Option ReadResult :=
  if call.allocated then
    (forEachProcess tasks).map fun st =>
      let (stored, left) := copyToUser call.faultAt st.kbuf (sizeT st.numread)
      if left ≠ 0 then ⟨stored, -efault, offp⟩
      else ⟨stored, call.count.toInt64, offp⟩
  else some ⟨[], -enomem, offp⟩

/-- The reads of one open file, each at the offset where the last one left it. -/
def taskinfoReads (tasks : List TaskStruct) : Int64 → List ReadCall → Option (List ReadResult)
  | _, [] => some []
  | offp, call :: calls =>
      (taskinfoRead tasks call offp).bind fun r =>
        (taskinfoReads tasks r.offp calls).map fun rs => r :: rs

/-! ## The width of a record -/

def recordWidth (p : TaskStruct) : Nat :=
  16 + max 7 (signedWidth p.tgid.toInt) + max 7 (signedWidth p.pid.toInt) +
    max 7 (decimalWidth p.cred.uid.toNat) + max 7 (decimalWidth p.cred.euid.toNat) + 5

@[simp] theorem length_taskRecord (p : TaskStruct) :
    (taskRecord p).length = recordWidth p := by
  have hcomm := p.comm_length
  have hmax : max 16 p.comm.length = 16 := by omega
  simp only [taskRecord, List.length_append, List.length_cons, List.length_rightpad,
    List.length_leftpad, length_signedDecimal, length_decimal, List.length_nil, recordWidth, hmax]
  omega

theorem length_listing (tasks : List TaskStruct) :
    (listing tasks).length = (tasks.map recordWidth).sum := by
  simp [listing, List.length_flatMap]

theorem signedWidth_int32 (n : Int32) : signedWidth n.toInt ≤ 11 := by
  have hlow := n.le_toInt
  have hhigh := n.toInt_lt
  have hwidth : decimalWidth n.toInt.natAbs ≤ 10 :=
    (decimalWidth_le_iff (by decide)).mpr (by omega)
  unfold signedWidth
  split <;> omega

theorem decimalWidth_uint32 (n : UInt32) : decimalWidth n.toNat ≤ 10 :=
  (decimalWidth_le_iff (by decide)).mpr (by have := n.toNat_lt; omega)

theorem recordWidth_bounds (p : TaskStruct) : 49 ≤ recordWidth p ∧ recordWidth p ≤ 63 := by
  have htgid := signedWidth_int32 p.tgid
  have hpid := signedWidth_int32 p.pid
  have huid := decimalWidth_uint32 p.cred.uid
  have heuid := decimalWidth_uint32 p.cred.euid
  unfold recordWidth
  omega

theorem nul_notMem_taskRecord (p : TaskStruct) : 0 ∉ taskRecord p := by
  have hcomm := p.comm_nul
  simp [taskRecord, List.rightpad, List.leftpad, List.mem_replicate, hcomm,
    nul_notMem_decimal, nul_notMem_signedDecimal]

end KernelTrg.TaskInfo
