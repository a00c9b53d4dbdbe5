import KernelTrg.FileIo.System
import Mathlib.Order.Lattice

/-!
# The two copy programs

`reg_fileio` copies by `read` and `write` in blocks; `mmap_fileio` makes the
destination as long as the source by storing one NUL and then copies through
mappings of both files.
-/

namespace KernelTrg.FileIo

open Bytes

/-- `BLKSIZE`, which is `PIPE_BUF`. -/
abbrev blkSize : Nat := 4096

abbrev pageSize : Nat := 4096

/-! ## Copying by blocks -/

structure Copying where
  fs : Fs
  fromfd : OpenFile
  tofd : OpenFile
  answers : List Answer

def readwrite (c : Copying) : Option (Int32 × Copying) :=
  (rRead c.fs c.fromfd blkSize c.answers).bind fun (buf, fromfd, answers) =>
    match buf with
    | none => some (-1, { c with fromfd, answers })
    | some [] => some (0, { c with fromfd, answers })
    | some (b :: bs) =>
        (rWrite c.fs c.tofd (b :: bs) answers).map fun (written, fs, tofd, answers) =>
          match written with
          | none => (-1, ⟨fs, fromfd, tofd, answers⟩)
          | some _ => (Int32.ofNat (b :: bs).length, ⟨fs, fromfd, tofd, answers⟩)

/-- The loop of `copyfile`. Every round takes an answer, so that the answers bound the
rounds; `totalbytes` wraps around. -/
def copyLoop : Nat → Int32 → Copying → Option (Int32 × Copying)
  | 0, _, _ => none
  | fuel + 1, totalbytes, c =>
      (readwrite c).bind fun (bytesread, c') =>
        if 0 < bytesread then copyLoop fuel (totalbytes + bytesread) c' else some (totalbytes, c')

def copyfile (c : Copying) : Option (Int32 × Copying) := copyLoop (c.answers.length + 1) 0 c

/-- What `reg_fileio` leaves: the files, the number it printed and its exit status. -/
structure RegResult where
  fs : Fs
  printed : Option Int32
  status : Nat

def regFileio (fs : Fs) (argv : List Path) (answers : List Answer) : Option RegResult :=
  match argv with
  | [_, src, dst] =>
      (rOpen2 fs src answers).bind fun (fdFrom, answers) =>
        match fdFrom with
        | none => some ⟨fs, none, 1⟩
        | some fromfd =>
            (rOpen3 fs dst answers).bind fun (fdTo, fs, answers) =>
              match fdTo with
              | none => some ⟨fs, none, 1⟩
              | some tofd =>
                  (copyfile ⟨fs, fromfd, tofd, answers⟩).map fun (n, c) => ⟨c.fs, some n, 0⟩
  | _ => some ⟨fs, none, 1⟩

/-! ## Copying through mappings -/

/-- The answers to the calls of `mmap_fileio`, of which only the opens are restarted;
`copied` is how far `memcpy` comes where the mapping ends too early. -/
structure MmapAnswers where
  openFrom : List Answer
  openTo : List Answer
  stat : Answer
  write : Answer
  mmapFrom : Answer
  mmapTo : Answer
  copied : Nat

/-- How `mmap_fileio` ends, or waits for the signal that ends it. -/
inductive Ending where
  | exit (status : Nat)
  | paused
  | sigbus
deriving DecidableEq, Repr

structure MmapResult where
  fs : Fs
  ending : Ending

def sysStat (fs : Fs) (path : Path) : Answer → Option Nat
  | .done _ => (fs.contents path).map List.length
  | _ => none

/-- `lseek` of a regular file with `SEEK_SET`. -/
def lseek (f : OpenFile) (pos : Nat) : OpenFile := { f with pos }

/-- The bytes that a mapping of a file can reach: whole pages. -/
def mappedLen (len : Nat) : Nat := (len + pageSize - 1) / pageSize * pageSize

/-- `memcpy` from the private to the shared mapping, both of length `len`. The stores up
to the end of the destination are stores to the file; a page beyond it is a `SIGBUS`. -/
def memcpyMapped (fs : Fs) (fromfd tofd : OpenFile) (len copied : Nat) : MmapResult :=
  let content := (fs.data fromfd.ino).take len
  let size := (fs.data tofd.ino).length
  if len ≤ mappedLen size then ⟨fs.write tofd.ino 0 (content.take size), .paused⟩
  else ⟨fs.write tofd.ino 0 (content.take (min copied size)), .sigbus⟩

/-- `main` of `mmap_fileio` from the `stat` on. The results of `lseek` and `write` are
not looked at. -/
def mmapCopy (fs : Fs) (src : Path) (fromfd tofd : OpenFile) (k : MmapAnswers) : MmapResult :=
  match sysStat fs src k.stat with
  | none => ⟨fs, .exit 1⟩
  | some 0 => ⟨fs, .exit 1⟩
  | some (len + 1) =>
      let tofd := lseek tofd len
      let (_, fs, tofd) := sysWrite fs tofd [0] k.write
      match k.mmapFrom, k.mmapTo with
      | .done _, .done _ => memcpyMapped fs fromfd tofd (len + 1) k.copied
      | _, _ => ⟨fs, .exit 1⟩

def mmapFileio (fs : Fs) (argv : List Path) (k : MmapAnswers) : Option MmapResult :=
  match argv with
  | [_, src, dst] =>
      (rOpen2 fs src k.openFrom).bind fun (fdFrom, _) =>
        match fdFrom with
        | none => some ⟨fs, .exit 1⟩
        | some fromfd =>
            (rOpen3 fs dst k.openTo).map fun (fdTo, fs, _) =>
              match fdTo with
              | none => ⟨fs, .exit 1⟩
              | some tofd => mmapCopy fs src fromfd tofd k
  | _ => some ⟨fs, .exit 1⟩

end KernelTrg.FileIo
