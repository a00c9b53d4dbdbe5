import KernelTrg.ThreadShow.TaskList
import KernelTrg.TaskInfo.Driver

/-!
# The lines that are shown

`showthrds` puts each line together in a buffer of 256 bytes from pieces formatted in one
of 128. Both are wide enough for every pid and name, so that a line is the text of its
fields.
-/

namespace KernelTrg.ThreadShow

open Bytes TaskInfo

/-! ## Strings in buffers -/

structure Str (size : Nat) (buf text : List UInt8) : Prop where
  length : buf.length = size
  fits : text.length < size
  nul : 0 ∉ text
  holds : ∃ rest, buf = text ++ 0 :: rest

namespace Str

variable {size size' n : Nat} {buf dst src text s s' : List UInt8}

theorem cstring_eq (h : Str size buf text) : cstring buf = text := by
  obtain ⟨rest, hbuf⟩ := h.holds
  rw [hbuf, cstring_append_nul h.nul]

theorem snprintf (text : List UInt8) (hbuf : buf.length = size) (hn : n ≤ size)
    (hlen : text.length < n) (hnul : 0 ∉ text) :
    Str size (TaskInfo.snprintf buf n text).1 text := by
  have htake : text.take (n - 1) = text := List.take_of_length_le (by omega)
  have hstore : (TaskInfo.snprintf buf n text).1 = store 0 buf 0 (text ++ [0]) := by
    rw [TaskInfo.snprintf, htake]
  refine ⟨?_, by omega, hnul, buf.drop (text ++ [0]).length, ?_⟩
  · rw [hstore, length_store, List.length_append, List.length_singleton]
    omega
  · rw [hstore, store_zero, List.append_assoc]
    rfl

theorem strncat (h : Str size dst s) (h' : Str size' src s') (hn : s'.length ≤ n)
    (hroom : s.length + s'.length < size) :
    ∃ buf, TaskInfo.strncat dst src n = some buf ∧ Str size buf (s ++ s') := by
  obtain ⟨rest, hdst⟩ := h.holds
  have hstrncat : TaskInfo.strncat dst src n = some (store 0 dst s.length (s' ++ [0])) := by
    simp only [TaskInfo.strncat, h.cstring_eq, h'.cstring_eq, List.take_of_length_le hn, h.length,
      if_pos hroom]
  have hstore : store 0 dst s.length (s' ++ [0]) =
      s ++ (s' ++ [0]) ++ (0 :: rest).drop (s' ++ [0]).length := by
    rw [hdst, store_append]
  refine ⟨_, hstrncat, ?_, by rwa [List.length_append], ?_, (0 :: rest).drop (s' ++ [0]).length, ?_⟩
  · rw [length_store, h.length, List.length_append, List.length_singleton]
    omega
  · simp [h.nul, h'.nul]
  · rw [hstore]
    simp

end Str

/-! ## The fields of a line -/

/-- A line; `count` is the number of threads where it is shown. -/
structure Line where
  tgid : Nat
  pid : Nat
  name : List UInt8
  bracketed : Bool
  count : Option Nat
deriving DecidableEq, Repr

/-- `"%6d %6d "`. -/
def idText (tgid pid : Nat) : List UInt8 :=
  (decimal tgid).leftpad 6 32 ++ 32 :: ((decimal pid).leftpad 6 32 ++ [32])

/-- `"[%30s]"` or `" %30s "`. -/
def nameText (bracketed : Bool) (name : List UInt8) : List UInt8 :=
  if bracketed then 91 :: (name.leftpad 30 32 ++ [93]) else 32 :: (name.leftpad 30 32 ++ [32])

/-- `"    %4d"`. -/
def countText (n : Nat) : List UInt8 := ascii "    " ++ (decimal n).leftpad 4 32

def Line.text (l : Line) : List UInt8 :=
  idText l.tgid l.pid ++ nameText l.bracketed l.name ++ (l.count.elim [] countText) ++ [10]

theorem Line.bracketed_of_text (l l' : Line) (htgid : l.tgid = l'.tgid) (hpid : l.pid = l'.pid)
    (htext : l.text = l'.text) : l.bracketed = l'.bracketed := by
  simp only [Line.text, htgid, hpid, List.append_assoc] at htext
  have hname := List.append_cancel_left htext
  cases hl : l.bracketed <;> cases hl' : l'.bracketed <;> simp [hl, hl', nameText] at hname ⊢

/-! ## One line -/

abbrev bufLen : Nat := 256

abbrev tmpLen : Nat := 128

/-- The arrays `buf` and `tmp`, which hold anything at the start. -/
structure Buffers where
  buf : List UInt8
  tmp : List UInt8
  buf_length : buf.length = bufLen
  tmp_length : tmp.length = tmpLen

def Buffers.cleared : Buffers where
  buf := List.replicate bufLen 0
  tmp := List.replicate tmpLen 0
  buf_length := List.length_replicate
  tmp_length := List.length_replicate

/-- The body of the loop for the thread `t` of the process `g`: the text that is printed. -/
def showthrd (b : Buffers) (g : Group) (t : Task) : Option (List UInt8) := do
  let (buf, _) := snprintf b.buf bufLen (idText g.tgid t.pid)
  let (tmp, _) :=
    if !g.leader.mm then snprintf b.tmp tmpLen (nameText true t.comm.text)
    else snprintf b.tmp tmpLen (nameText false t.comm.text)
  let buf ← strncat buf tmp tmpLen
  -- the "main" thread of a process with several
  let buf ←
    if g.leader.mm ∧ g.tgid = t.pid ∧ 1 < g.nrThreads then
      strncat buf (snprintf tmp tmpLen (countText g.nrThreads)).1 tmpLen
    else some buf
  let (tmp, _) := snprintf tmp 2 [10]
  let buf ← strncat buf tmp 2
  return cstring buf

def lineOf (g : Group) (t : Task) : Line where
  tgid := g.tgid
  pid := t.pid
  name := t.comm.text
  bracketed := !g.leader.mm
  count := if g.leader.mm ∧ g.tgid = t.pid ∧ 1 < g.nrThreads then some g.nrThreads else none

/-! ### The width of the pieces -/

section Widths

variable {tgid pid n : Nat}

theorem decimal_short (h : n ≤ pidMax) : (decimal n).length ≤ 7 := by
  rw [length_decimal]
  exact (decimalWidth_le_iff (by decide)).mpr (by simp only [pidMax] at h; omega)

theorem length_idText (htgid : tgid < pidMax) (hpid : pid < pidMax) :
    (idText tgid pid).length ≤ 16 := by
  have htgid' := decimal_short htgid.le
  have hpid' := decimal_short hpid.le
  simp only [idText, List.length_append, List.length_cons, List.length_leftpad, List.length_nil]
  omega

theorem nul_notMem_idText (tgid pid : Nat) : 0 ∉ idText tgid pid := by
  simp [idText, nul_notMem_decimal]

theorem length_nameText (bracketed : Bool) (comm : Comm) :
    (nameText bracketed comm.text).length = 32 := by
  have hcomm := comm.length_lt
  cases bracketed <;> simp [nameText] <;> omega

theorem nul_notMem_nameText (bracketed : Bool) (comm : Comm) :
    0 ∉ nameText bracketed comm.text := by
  cases bracketed <;> simp [nameText, comm.nul_notMem]

theorem length_countText (h : n ≤ pidMax) : (countText n).length ≤ 11 := by
  have hn := decimal_short h
  have hblank : (ascii "    ").length = 4 := by decide
  simp only [countText, List.length_append, List.length_leftpad]
  omega

theorem nul_notMem_countText (n : Nat) : 0 ∉ countText n := by
  have hblank : 0 ∉ ascii "    " := by decide
  simp [countText, nul_notMem_decimal, hblank]

end Widths

/-- The buffers are wide enough: the text of a line is that of its fields. -/
theorem showthrd_eq {g : Group} {t : Task} (b : Buffers) (htgid : g.tgid < pidMax)
    (hpid : t.pid < pidMax) (hcount : g.nrThreads ≤ pidMax) :
    showthrd b g t = some (lineOf g t).text := by
  have hid := length_idText htgid hpid
  have hname := length_nameText (!g.leader.mm) t.comm
  have hnum := length_countText hcount
  have hbuf : Str bufLen (snprintf b.buf bufLen (idText g.tgid t.pid)).1 (idText g.tgid t.pid) :=
    Str.snprintf _ b.buf_length (le_refl _) (by simp only [bufLen]; omega) (nul_notMem_idText _ _)
  have htmp : Str tmpLen (snprintf b.tmp tmpLen (nameText (!g.leader.mm) t.comm.text)).1
      (nameText (!g.leader.mm) t.comm.text) :=
    Str.snprintf _ b.tmp_length (le_refl _) (by simp only [tmpLen]; omega) (nul_notMem_nameText _ _)
  have hbranch : (if (!g.leader.mm) = true then
        snprintf b.tmp tmpLen (nameText true t.comm.text)
      else snprintf b.tmp tmpLen (nameText false t.comm.text)) =
      snprintf b.tmp tmpLen (nameText (!g.leader.mm) t.comm.text) := by
    cases g.leader.mm <;> rfl
  obtain ⟨buf₁, hcat₁, hbuf₁⟩ := hbuf.strncat (n := tmpLen) htmp (by simp only [tmpLen]; omega)
    (by simp only [bufLen]; omega)
  simp only [showthrd, lineOf, Line.text, hbranch, hcat₁, Option.bind_eq_bind, Option.bind_some]
  split
  · -- the count is shown
    have hnumber := Str.snprintf (countText g.nrThreads) htmp.length (le_refl _)
      (by simp only [tmpLen]; omega) (nul_notMem_countText _)
    obtain ⟨buf₂, hcat₂, hbuf₂⟩ := hbuf₁.strncat (n := tmpLen) hnumber
      (by simp only [tmpLen]; omega) (by simp only [bufLen, List.length_append]; omega)
    have hend := Str.snprintf (n := 2) [10] htmp.length (by decide) (by decide) (by decide)
    obtain ⟨buf₃, hcat₃, hbuf₃⟩ := hbuf₂.strncat (n := 2) hend (by decide)
      (by simp only [bufLen, List.length_append, List.length_singleton]; omega)
    simp only [hcat₂, hcat₃, Option.bind_some, hbuf₃.cstring_eq]
    rfl
  · have hend := Str.snprintf (n := 2) [10] htmp.length (by decide) (by decide) (by decide)
    obtain ⟨buf₃, hcat₃, hbuf₃⟩ := hbuf₁.strncat (n := 2) hend (by decide)
      (by simp only [bufLen, List.length_append, List.length_singleton]; omega)
    simp only [hcat₃, Option.bind_some, hbuf₃.cstring_eq]
    simp

end KernelTrg.ThreadShow
