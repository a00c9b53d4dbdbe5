import KernelTrg.Lib.Bytes
import Mathlib.Logic.Function.Basic

/-!
# Files and the restarted system calls

Regular files, reached by name; several names may lead to one of them. The kernel
answers every call from a schedule, and the calls of the restart library ask again
while they are interrupted. `none` is a program that has used up its schedule and is
still running.
-/

namespace KernelTrg.FileIo

open Bytes

abbrev Path := List UInt8

abbrev Ino := Nat

/-- Names, the files they lead to, and the contents of the files. -/
structure Fs where
  lookup : Path → Option Ino
  data : Ino → List UInt8
  next : Ino
  lookup_lt : ∀ {path : Path} {ino : Ino}, lookup path = some ino → ino < next

namespace Fs

variable (fs : Fs)

def contents (path : Path) : Option (List UInt8) := (fs.lookup path).map fs.data

/-- Store `bytes` in a file from `pos` on. No bytes do not extend the file. -/
def write (ino : Ino) (pos : Nat) (bytes : List UInt8) : Fs :=
  if bytes = [] then fs
  else { fs with data := Function.update fs.data ino (store 0 (fs.data ino) pos bytes) }

/-- `O_CREAT`: an empty file where there is none with that name. -/
def create (path : Path) : Fs :=
  if (fs.lookup path).isSome then fs
  else
    { lookup := Function.update fs.lookup path (some fs.next)
      data := Function.update fs.data fs.next []
      next := fs.next + 1
      lookup_lt := by
        intro p ino h
        rw [Function.update_apply] at h
        split at h
        · cases h
          exact Nat.lt_succ_self _
        · exact Nat.lt_succ_of_lt (fs.lookup_lt h) }

end Fs

structure OpenFile where
  ino : Ino
  pos : Nat
deriving DecidableEq, Repr

/-- How the kernel answers a call: done, with at most so many bytes where the call
transfers any; interrupted by a signal; failed for another reason. -/
inductive Answer where
  | done (bytes : Nat)
  | eintr
  | error
deriving DecidableEq, Repr

/-! ## System calls -/

/-- `open`, with `O_CREAT` or without; `none` is the result -1. -/
def sysOpen (fs : Fs) (path : Path) (creat : Bool) : Answer → Option OpenFile × Fs
  | .done _ =>
      let fs' := if creat then fs.create path else fs
      ((fs'.lookup path).map fun ino => ⟨ino, 0⟩, fs')
  | _ => (none, fs)

/-- `read`: some bytes, unless the end of the file is reached. -/
def sysRead (fs : Fs) (f : OpenFile) (size : Nat) : Answer → Option (List UInt8) × OpenFile
  | .done k =>
      let bytes := ((fs.data f.ino).drop f.pos).take (min size (max k 1))
      (some bytes, { f with pos := f.pos + bytes.length })
  | _ => (none, f)

def sysWrite (fs : Fs) (f : OpenFile) (buf : List UInt8) :
    Answer → Option Nat × Fs × OpenFile
  | .done k =>
      let bytes := buf.take k
      (some bytes.length, fs.write f.ino f.pos bytes, { f with pos := f.pos + bytes.length })
  | _ => (none, fs, f)

/-! ## The restart library -/

/-- `while (retval = call, retval == -1 && errno == EINTR) ;` as the answer that ends it. -/
def restart : List Answer → Option (Answer × List Answer)
  | [] => none
  | .eintr :: answers => restart answers
  | answer :: answers => some (answer, answers)

def rOpen2 (fs : Fs) (path : Path) (answers : List Answer) :
    Option (Option OpenFile × List Answer) :=
  (restart answers).map fun (answer, rest) => ((sysOpen fs path false answer).1, rest)

/-- `r_open3`, which both programs call with `O_CREAT`. -/
def rOpen3 (fs : Fs) (path : Path) (answers : List Answer) :
    Option (Option OpenFile × Fs × List Answer) :=
  (restart answers).map fun (answer, rest) =>
    let (fd, fs') := sysOpen fs path true answer
    (fd, fs', rest)

def rRead (fs : Fs) (f : OpenFile) (size : Nat) (answers : List Answer) :
    Option (Option (List UInt8) × OpenFile × List Answer) :=
  (restart answers).map fun (answer, rest) =>
    let (bytes, f') := sysRead fs f size answer
    (bytes, f', rest)

/-- The loop of `r_write`: what is left of the buffer, and the bytes written so far. -/
def rWriteLoop (fs : Fs) (f : OpenFile) :
    List UInt8 → Nat → List Answer → Option (Option Nat × Fs × OpenFile × List Answer)
  | [], totalbytes, answers => some (some totalbytes, fs, f, answers)
  | _ :: _, _, [] => none
  | b :: bs, totalbytes, answer :: answers =>
      match sysWrite fs f (b :: bs) answer with
      | (some n, fs', f') => rWriteLoop fs' f' ((b :: bs).drop n) (totalbytes + n) answers
      | (none, fs', f') =>
          if answer = .eintr then rWriteLoop fs' f' (b :: bs) totalbytes answers
          else some (none, fs', f', answers)
termination_by structural _ _ answers => answers

def rWrite (fs : Fs) (f : OpenFile) (buf : List UInt8) (answers : List Answer) :
    Option (Option Nat × Fs × OpenFile × List Answer) :=
  rWriteLoop fs f buf 0 answers

end KernelTrg.FileIo
