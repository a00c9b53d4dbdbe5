import KernelTrg.TaskInfo.Driver
import Mathlib.Data.Vector.Defs

/-!
# The reader of the task listing

`rdtasks` reads from a device once, stores a NUL in front of the end of what it has read
and prints the string. The answers of the system are parameters. `none` is a store outside
the buffer.
-/

namespace KernelTrg.TaskInfo

open Bytes

/-! ## Numbers of the command line -/

def isSpace (c : UInt8) : Bool := c = 32 ∨ 9 ≤ c ∧ c ≤ 13

def isDigit (c : UInt8) : Bool := 48 ≤ c ∧ c ≤ 57

/-- `strtol` to base 10; a number that is too large becomes the nearest one. -/
def strtol (text : List UInt8) : Int64 :=
  let magnitude (digits : List UInt8) : Int := decimalValue (digits.takeWhile isDigit)
  match text.dropWhile isSpace with
  | 45 :: digits => Int64.ofInt (max (-magnitude digits) (-2 ^ 63))
  | 43 :: digits => Int64.ofInt (min (magnitude digits) (2 ^ 63 - 1))
  | digits => Int64.ofInt (min (magnitude digits) (2 ^ 63 - 1))

def atoi (text : List UInt8) : Int32 := (strtol text).toInt32

/-! ## The program -/

/-- How the system answers. An error has the text that `perror` prints for it; a read has at most
the bytes it was asked for, and the block of `malloc` holds what it held before. -/
structure Sys where
  sigaction : Except (List UInt8) Unit
  openDevice : List UInt8 → Except (List UInt8) Int32
  malloc : (num : UInt64) → Option (List.Vector UInt8 num.toNat)
  read : (num : UInt64) → Except (List UInt8) {bytes : List UInt8 // bytes.length ≤ num.toNat}

/-- What the program has printed when it exits, and its exit status. -/
structure Ran where
  stdout : List UInt8
  stderr : List UInt8
  status : Nat
deriving DecidableEq, Repr

def perror (what error : List UInt8) : List UInt8 := what ++ ascii ": " ++ error ++ [10]

abbrev intMax : UInt64 := 2147483647

def byteCount (count : List UInt8) : UInt64 := (atoi count).toInt64.toUInt64

/-- The check of the number of bytes, of which the first half never fails. -/
def accepted (num : UInt64) : Bool := ¬(num < 0 ∨ intMax < num)

/-- `buf[i] = b` -/
def storeAt (buf : List UInt8) (i : Int32) (b : UInt8) : Option (List UInt8) :=
  if 0 ≤ i.toInt ∧ i.toInt < buf.length then some (buf.set i.toInt.toNat b) else none

def opened (fd : Int32) : List UInt8 :=
  ascii "device opened: fd=" ++ signedDecimal fd.toInt ++ [10]

def tableHeader : List UInt8 :=
  ascii "----------------------------------------------------------------------\n" ++
    ascii "Task Name       | TGID  |  PID  |  RUID |  EUID\n" ++
    ascii "----------------------------------------------------------------------\n"

/-- What is printed for the string of a buffer, once `n` bytes are read. -/
def report (prog device : List UInt8) (n : Int32) (text : List UInt8) : List UInt8 :=
  prog ++ ascii ": read " ++ signedDecimal n.toInt ++ ascii " bytes from " ++ device ++ [10] ++
    tableHeader ++ text ++ [10]

/-- `main` from the `malloc` on. -/
def readDevice (sys : Sys) (prog device : List UInt8) (fd : Int32) (num : UInt64) : Option Ran :=
  match sys.malloc num with
  | none => some ⟨opened fd, prog ++ ascii ": out of memory!\n", 1⟩
  | some block =>
      match sys.read num with
      | .error error => some ⟨opened fd, perror (ascii "read failed") error, 1⟩
      | .ok bytes =>
          let buf := store 0 block.toList 0 bytes.val
          let n := Int32.ofNat bytes.val.length
          (storeAt buf (n - 1) 0).map fun buf =>
            ⟨opened fd ++ report prog device n (cstring buf), [], 0⟩

def rdtasks (sys : Sys) : List (List UInt8) → Option Ran
  | [prog, device, count] =>
      match sys.sigaction with
      | .error error => some ⟨[], perror (ascii "sigaction") error, 1⟩
      | .ok () =>
          match sys.openDevice device with
          | .error error => some ⟨[], perror (ascii "open") error, 1⟩
          | .ok fd =>
              let num := byteCount count
              if accepted num then readDevice sys prog device fd num
              else some ⟨opened fd, prog ++ ascii ": number of bytes '" ++
                signedDecimal num.toInt64.toInt ++ ascii "' invalid.\n", 1⟩
  | argv => some ⟨[], ascii "Usage: " ++ argv.headD (ascii "(null)") ++
      ascii " device_file num_bytes_to_read\n", 1⟩

variable {sys : Sys} {prog device count : List UInt8} {fd : Int32} {num : UInt64}

/-! ## The check -/

theorem accepted_iff (count : List UInt8) :
    accepted (byteCount count) = true ↔ 0 ≤ (atoi count).toInt := by
  have hlow := (atoi count).le_toInt
  have hhigh := (atoi count).toInt_lt
  have hcount : ((byteCount count).toNat : Int) = (atoi count).toInt % 2 ^ 64 := toNat_toUInt64 _
  have hmax : intMax.toNat = 2147483647 := rfl
  simp only [accepted, not_or, decide_eq_true_eq, UInt64.not_lt, UInt64.le_iff_toNat_le, hmax,
    UInt64.toNat_zero]
  omega

theorem toNat_le_of_accepted (h : accepted num = true) : num.toNat < 2 ^ 31 := by
  have hmax : intMax.toNat = 2147483647 := rfl
  simp only [accepted, not_or, decide_eq_true_eq, UInt64.not_lt, UInt64.le_iff_toNat_le, hmax] at h
  omega

/-! ## What is printed -/

theorem storeAt_last {s rest : List UInt8} {b : UInt8} (h : (s ++ [b]).length < 2 ^ 31) :
    storeAt (s ++ [b] ++ rest) (Int32.ofNat (s ++ [b]).length - 1) 0 = some (s ++ 0 :: rest) := by
  have hindex : (Int32.ofNat (s ++ [b]).length - 1).toInt = s.length := by
    rw [Int32.toInt_sub, Int32.toInt_ofNat_of_lt h, Int32.toInt_one]
    rw [List.length_append, List.length_singleton] at h ⊢
    rw [Int.bmod_eq_of_le (by omega) (by omega)]
    omega
  have hin : 0 ≤ (s.length : Int) ∧ (s.length : Int) < (s ++ [b] ++ rest).length := by
    simp only [List.length_append, List.length_singleton]
    omega
  unfold storeAt
  rw [hindex, if_pos hin, Int.toNat_natCast]
  simp

theorem storeAt_none (buf : List UInt8) : storeAt buf (Int32.ofNat 0 - 1) 0 = none := rfl

/-- The string up to a NUL put over the last byte is the string that was read exactly where a NUL
was read. -/
theorem cstring_cut_iff {s rest : List UInt8} {b : UInt8} :
    cstring (s ++ 0 :: rest) = cstring (s ++ [b]) ↔ 0 ∈ s ++ [b] := by
  by_cases hs : 0 ∈ s
  · obtain ⟨front, back, rfl, hfront⟩ := List.eq_append_cons_of_mem hs
    simp only [List.append_assoc, List.cons_append, cstring_append_nul hfront, true_iff]
    simp
  · rw [cstring_append_nul hs]
    by_cases hb : b = 0
    · rw [hb, cstring_append_nul hs]
      simp
    · have hall : 0 ∉ s ++ [b] := by simp [hs, Ne.symm hb]
      rw [cstring_of_notMem hall]
      simp [hs, Ne.symm hb]

theorem report_inj {n : Int32} {text text' : List UInt8} :
    report prog device n text = report prog device n text' ↔ text = text' := by
  unfold report
  rw [List.append_cancel_right_eq, List.append_cancel_left_eq]

section Reads

variable (prog) (hsig : sys.sigaction = .ok ()) (hopen : sys.openDevice device = .ok fd)
  (hcount : accepted (byteCount count) = true)

include hsig hopen hcount

theorem rdtasks_accepted :
    rdtasks sys [prog, device, count] = readDevice sys prog device fd (byteCount count) := by
  simp only [rdtasks, hsig, hopen, hcount, if_true]

variable {block : List.Vector UInt8 (byteCount count).toNat}
  {bytes : {bytes : List UInt8 // bytes.length ≤ (byteCount count).toNat}}
  (hmalloc : sys.malloc (byteCount count) = some block)
  (hread : sys.read (byteCount count) = .ok bytes)

include hmalloc hread

/-- At the end of the file the NUL is stored in front of the buffer. -/
theorem rdtasks_nothing (hnil : bytes.val = []) : rdtasks sys [prog, device, count] = none := by
  rw [rdtasks_accepted prog hsig hopen hcount, readDevice, hmalloc, hread]
  simp only [hnil, List.length_nil, storeAt_none, Option.map_none]

theorem rdtasks_some {s : List UInt8} {b : UInt8} (hbytes : bytes.val = s ++ [b]) :
    ∃ rest, rdtasks sys [prog, device, count] = some ⟨opened fd ++
      report prog device (Int32.ofNat bytes.val.length) (cstring (s ++ 0 :: rest)), [], 0⟩ := by
  have hlength : (s ++ [b]).length < 2 ^ 31 := by
    have hle := bytes.property
    have hlt := toNat_le_of_accepted hcount
    rw [hbytes] at hle
    omega
  refine ⟨block.toList.drop (s ++ [b]).length, ?_⟩
  rw [rdtasks_accepted prog hsig hopen hcount, readDevice, hmalloc, hread]
  simp only [hbytes, store_zero, storeAt_last hlength, Option.map_some]

/-- A read stays within the buffer and is printed up to its first NUL exactly where it has a NUL:
an empty read has the NUL stored in front of the buffer, and any other loses its last byte. -/
theorem rdtasks_prints_iff :
    rdtasks sys [prog, device, count] = some ⟨opened fd ++
      report prog device (Int32.ofNat bytes.val.length) (cstring bytes.val), [], 0⟩ ↔
      0 ∈ bytes.val := by
  rcases List.eq_nil_or_concat bytes.val with hnil | ⟨s, b, hbytes⟩
  · rw [rdtasks_nothing prog hsig hopen hcount hmalloc hread hnil, hnil]
    simp
  · rw [List.concat_eq_append] at hbytes
    obtain ⟨rest, hran⟩ :=
      rdtasks_some prog hsig hopen hcount hmalloc hread hbytes
    rw [hran, Option.some_inj, Ran.mk.injEq, List.append_cancel_left_eq, report_inj, hbytes]
    simp only [and_true]
    exact cstring_cut_iff

end Reads

def deviceOf (content : List UInt8) : Sys where
  sigaction := .ok ()
  openDevice := fun _ => .ok 3
  malloc := fun num => some ⟨List.replicate num.toNat 170, List.length_replicate⟩
  read := fun num => .ok ⟨content.take num.toNat, by rw [List.length_take]; omega⟩

/-- Two bytes and a NUL, read with room for eight. -/
theorem rdtasks_prints_two :
    rdtasks (deviceOf [104, 105, 0]) [ascii "rdtasks", ascii "dev", ascii "8"] = some ⟨opened 3 ++
      report (ascii "rdtasks") (ascii "dev") 3 [104, 105], [], 0⟩ := by
  have hread : (deviceOf [104, 105, 0]).read (byteCount (ascii "8")) =
      .ok ⟨[104, 105, 0], by decide⟩ := rfl
  exact (rdtasks_prints_iff (ascii "rdtasks") rfl rfl (by decide) rfl hread).mpr (by decide)

/-- At its end a device makes the program store in front of its buffer, and of a device with one
byte the program prints nothing. -/
theorem rdtasks_loses :
    rdtasks (deviceOf []) [ascii "rdtasks", ascii "dev", ascii "8"] = none ∧
      rdtasks (deviceOf [104]) [ascii "rdtasks", ascii "dev", ascii "8"] = some ⟨opened 3 ++
        report (ascii "rdtasks") (ascii "dev") 1 [], [], 0⟩ ∧
      report (ascii "rdtasks") (ascii "dev") 1 [] ≠
        report (ascii "rdtasks") (ascii "dev") 1 [104] := by
  have hcount : accepted (byteCount (ascii "8")) = true := by decide
  have hnone : (deviceOf []).read (byteCount (ascii "8")) = .ok ⟨[], by decide⟩ := rfl
  have hone : (deviceOf [104]).read (byteCount (ascii "8")) = .ok ⟨[] ++ [104], by decide⟩ := rfl
  obtain ⟨rest, hran⟩ := rdtasks_some (ascii "rdtasks") rfl rfl hcount rfl hone rfl
  exact ⟨rdtasks_nothing (ascii "rdtasks") rfl rfl hcount rfl hnone rfl, hran,
    fun h => absurd (report_inj.mp h) (by decide)⟩

end KernelTrg.TaskInfo
