import KernelTrg.Lib.Bytes
import Mathlib.Logic.Function.Iterate

/-!
# The yes-or-no prompt

`get_yn_reply` asks, reads a reply and asks again until it knows the reply. `read` without `-r`
takes a backslash at the end of a line as joining the next one to it, and yields an empty reply
once the input has ended; `set +e` around the call lets its status pass.
-/

namespace KernelTrg.Kbuild

open Bytes

structure Line where
  text : List UInt8
  newline_notMem : 10 ∉ text
  nul_notMem : 0 ∉ text

/-! ## The builtin `read` -/

/-- The bytes of a line, each with whether a backslash escapes it, and whether a backslash
escapes the newline. -/
def marks : List UInt8 → List (UInt8 × Bool) × Bool
  | [] => ([], false)
  | [92] => ([], true)
  | 92 :: c :: cs => ((c, true) :: (marks cs).1, (marks cs).2)
  | c :: cs => ((c, false) :: (marks cs).1, (marks cs).2)

/-- One reply from the lines that are left, and the lines behind it. -/
def readMarks : List Line → List (UInt8 × Bool) × List Line
  | [] => ([], [])
  | l :: ls =>
      if (marks l.text).2 then ((marks l.text).1 ++ (readMarks ls).1, (readMarks ls).2)
      else ((marks l.text).1, ls)

/-- The text as `read` holds it: the byte 1 stands before each byte that is escaped, and before the
two bytes that mark such things themselves. -/
def quoted (text : List (UInt8 × Bool)) : List UInt8 :=
  text.flatMap fun b => if b.2 ∨ b.1 = 1 ∨ b.1 = 127 then [1, b.1] else [b.1]

def isBlank (c : UInt8) : Bool := c = 32 || c = 9

/-- The first word, and what is left from the blank behind it. -/
def firstWord : List UInt8 → List UInt8 × List UInt8
  | [] => ([], [])
  | [c] => if isBlank c then ([], [c]) else ([c], [])
  | c :: d :: cs =>
      if isBlank c then ([], c :: d :: cs)
      else if c = 1 then (1 :: d :: (firstWord cs).1, (firstWord cs).2)
      else (c :: (firstWord (d :: cs)).1, (firstWord (d :: cs)).2)

/-- Nothing but blanks, each with or without the mark in front of it. -/
def onlyBlanks : List UInt8 → Bool
  | [] => true
  | [c] => isBlank c
  | c :: d :: cs => (isBlank c || c = 1 && isBlank d) && onlyBlanks (d :: cs)

/-- The blanks at the end are cut off, the escaped ones with them, as long as a byte is left. -/
def stripTrailing : List UInt8 → List UInt8
  | [] => []
  | c :: cs => c :: if onlyBlanks cs then [] else stripTrailing cs

def dequoted : List UInt8 → List UInt8
  | [] => []
  | [c] => if c = 1 then [] else [c]
  | c :: d :: cs => if c = 1 then d :: dequoted cs else c :: dequoted (d :: cs)

/-- What `reply` is set to. Where the line has one word that is the word; otherwise it is the line
without the blanks around it. A mark alone is not taken off. -/
def strip (text : List (UInt8 × Bool)) : List UInt8 :=
  let line := (quoted text).dropWhile isBlank
  let word := firstWord line
  let value := if word.2.dropWhile isBlank = [] then word.1 else stripTrailing line
  if value = [1] then [1] else dequoted value

def read (input : List Line) : List UInt8 × List Line :=
  (strip (readMarks input).1, (readMarks input).2)

/-! ## The loop -/

def answer (reply : List UInt8) : Option Nat :=
  if reply ∈ [ascii "y", ascii "yes", ascii "Y", ascii "YES"] then some 0
  else if reply.head? = some 'n'.toUInt8 ∨ reply.head? = some 'N'.toUInt8 then some 1
  else none

/-- The loop before a turn, with the input that is left, or the function after its return. -/
inductive State where
  | asking (input : List Line) (out : List UInt8)
  | returned (ret : Nat) (out : List UInt8)

def turn : State → State
  | .asking input out =>
      -- `str` is empty, the callers pass no arguments
      match answer (read input).1 with
      | some ret => .returned ret (out ++ ascii "\n")
      | none => .asking (read input).2 (out ++ ascii "\n" ++ ascii "What? Pl type Y / N\n")
  | st => st

/-- `get_yn_reply` on the lines of its input, after some turns. -/
def getYnReply (input : List Line) (turns : Nat) : State :=
  turn^[turns] (.asking input (ascii "Type Y or N please (followed by ENTER) : "))

/-! ## The replies of an input -/

/-- The lines of an input, joined where a backslash says so. -/
def joined : List Line → List (List (UInt8 × Bool))
  | [] => []
  | l :: ls =>
      if (marks l.text).2 then
        ((marks l.text).1 ++ (joined ls).headD []) :: (joined ls).tail
      else (marks l.text).1 :: joined ls

def replies (input : List Line) : List (List UInt8) := (joined input).map strip

/-- The loop ends, and with the answer to the first reply it knows, if there is one. -/
def EndsRight (input : List Line) : Prop :=
  (∃ turns ret out, getYnReply input turns = .returned ret out) ∧
    ∀ ret, (replies input).findSome? answer = some ret →
      ∃ turns out, getYnReply input turns = .returned ret out

variable {input : List Line} {out : List UInt8} {l : Line} {ls : List Line} {cs : List UInt8}

theorem readMarks_joined (input : List Line) :
    (readMarks input).1 = (joined input).headD [] ∧
      joined (readMarks input).2 = (joined input).tail := by
  induction input with
  | nil => exact ⟨rfl, rfl⟩
  | cons l ls ih =>
      rw [readMarks, joined]
      split
      case isTrue => exact ⟨congrArg ((marks l.text).1 ++ ·) ih.1, ih.2⟩
      case isFalse => exact ⟨rfl, rfl⟩

theorem read_fst (input : List Line) : (read input).1 = (replies input).headD [] := by
  unfold read replies
  rw [(readMarks_joined input).1]
  cases joined input <;> rfl

theorem replies_read (input : List Line) : replies (read input).2 = (replies input).tail := by
  unfold read replies
  rw [(readMarks_joined input).2, List.map_tail]

theorem turn_of_some {ret : Nat} (h : answer ((replies input).headD []) = some ret)
    (out : List UInt8) :
    ∃ out', turn (.asking input out) = .returned ret out' := by
  rw [turn, read_fst, h]
  exact ⟨_, rfl⟩

theorem turn_of_none (h : answer ((replies input).headD []) = none) (out : List UInt8) :
    ∃ input' out', turn (.asking input out) = .asking input' out' ∧
      replies input' = (replies input).tail := by
  rw [turn, read_fst, h]
  exact ⟨_, _, rfl, replies_read input⟩

/-- A reply that the loop knows ends it, behind any replies that it does not know. -/
theorem turns_of_known (out : List UInt8) {unknown later : List (List UInt8)}
    {reply : List UInt8} {ret : Nat} (hinput : replies input = unknown ++ reply :: later)
    (hunknown : ∀ r ∈ unknown, answer r = none) (hreply : answer reply = some ret) :
    ∃ turns out', turn^[turns] (.asking input out) = .returned ret out' := by
  induction unknown generalizing input out with
  | nil =>
      have hhead : answer ((replies input).headD []) = some ret := by
        rw [hinput]
        exact hreply
      rcases turn_of_some hhead out with ⟨out', h⟩
      exact ⟨1, out', h⟩
  | cons r unknown ih =>
      have hhead : answer ((replies input).headD []) = none := by
        rw [hinput]
        exact hunknown r (by simp)
      rcases turn_of_none hhead out with ⟨input', out', h, htail⟩
      have hinput' : replies input' = unknown ++ reply :: later := by
        rw [htail, hinput]
        rfl
      have hrest : ∀ r' ∈ unknown, answer r' = none := fun r' hr' => hunknown r' (by simp [hr'])
      rcases ih out' hinput' hrest with ⟨turns, out'', hend⟩
      exact ⟨turns + 1, out'', by rw [Function.iterate_succ_apply, h, hend]⟩

/-- Without one, the loop goes on for ever: behind the end of the input each reply is empty. -/
theorem turns_of_unknown (out : List UInt8) (h : ∀ r ∈ replies input, answer r = none)
    (turns : Nat) :
    ∃ input' out', turn^[turns] (.asking input out) = .asking input' out' := by
  induction turns generalizing input out with
  | zero => exact ⟨input, out, rfl⟩
  | succ turns ih =>
      have hhead : answer ((replies input).headD []) = none := by
        cases hreplies : replies input with
        | nil => rfl
        | cons r rs => exact h r (by rw [hreplies]; exact List.mem_cons_self)
      rcases turn_of_none hhead out with ⟨input', out', hturn, htail⟩
      rw [Function.iterate_succ_apply, hturn]
      apply ih
      rw [htail]
      intro r hr
      exact h r (List.mem_of_mem_tail hr)

/-- A line that `read` hands over as it is: no backslash, no blank at its ends. -/
structure Line.Plain (l : Line) : Prop where
  backslash : 92 ∉ l.text
  head : ∀ c, l.text.head? = some c → isBlank c = false
  last : ∀ c, l.text.getLast? = some c → isBlank c = false

theorem marks_of_notMem (h : 92 ∉ cs) : marks cs = (cs.map (·, false), false) := by
  induction cs with
  | nil => rfl
  | cons c cs ih =>
      have hc : c ≠ 92 := fun e => h (by simp [e])
      have hcs : 92 ∉ cs := fun hmem => h (by simp [hmem])
      have hstep : marks (c :: cs) = ((c, false) :: (marks cs).1, (marks cs).2) := by
        rw [marks]
        · exact fun e _ => hc e
        · exact fun _ _ e _ => hc e
      rw [hstep, ih hcs]
      rfl

theorem dropWhile_isBlank (h : ∀ c, cs.head? = some c → isBlank c = false) :
    cs.dropWhile isBlank = cs := by
  cases cs with
  | nil => rfl
  | cons c cs => exact List.dropWhile_cons_of_neg (by simp [h c rfl])

theorem quoted_cons (b : UInt8 × Bool) (text : List (UInt8 × Bool)) :
    quoted (b :: text) =
      (if b.2 ∨ b.1 = 1 ∨ b.1 = 127 then [1, b.1] else [b.1]) ++ quoted text := by
  rw [quoted, List.flatMap_cons]
  rfl

theorem dequoted_cons {c : UInt8} (h : c ≠ 1) (cs : List UInt8) :
    dequoted (c :: cs) = c :: dequoted cs := by
  cases cs <;> simp [dequoted, h]

theorem dequoted_quoted (text : List (UInt8 × Bool)) :
    dequoted (quoted text) = text.map Prod.fst := by
  induction text with
  | nil => rfl
  | cons b text ih =>
      rw [quoted_cons, List.map_cons, ← ih]
      split
      case isTrue => rfl
      case isFalse h => exact dequoted_cons (fun hb => h (.inr (.inl hb))) (quoted text)

theorem getLast?_quoted (text : List (UInt8 × Bool)) :
    (quoted text).getLast? = text.getLast?.map Prod.fst := by
  induction text with
  | nil => rfl
  | cons b text ih =>
      rw [quoted_cons, List.getLast?_append, ih, List.getLast?_cons]
      cases text.getLast? with
      | none => split <;> rfl
      | some last => rfl

theorem quoted_head (h : ∀ c, cs.head? = some c → isBlank c = false) :
    ∀ c, (quoted (cs.map (·, false))).head? = some c → isBlank c = false := by
  cases cs with
  | nil => exact fun c hc => nomatch hc
  | cons first cs =>
      intro c hc
      rw [List.map_cons, quoted_cons] at hc
      split at hc
      case isTrue =>
        cases hc
        rfl
      case isFalse =>
        cases hc
        exact h first rfl

theorem firstWord_append (line : List UInt8) :
    (firstWord line).1 ++ (firstWord line).2 = line := by
  fun_induction firstWord line <;> simp_all

theorem onlyBlanks_last {c : UInt8} (h : onlyBlanks cs = true) (hlast : cs.getLast? = some c) :
    isBlank c = true := by
  fun_induction onlyBlanks cs with
  | case1 => cases hlast
  | case2 d =>
      cases hlast
      exact h
  | case3 d e cs ih =>
      rw [Bool.and_eq_true] at h
      exact ih h.2 (by rwa [List.getLast?_cons_cons] at hlast)

theorem stripTrailing_of_last (h : ∀ c, cs.getLast? = some c → isBlank c = false) :
    stripTrailing cs = cs := by
  induction cs with
  | nil => rfl
  | cons c cs ih =>
      cases cs with
      | nil => rfl
      | cons d cs =>
          have hrest : ∀ e, (d :: cs).getLast? = some e → isBlank e = false := by
            intro e he
            exact h e (by rwa [List.getLast?_cons_cons])
          have hstay : ¬onlyBlanks (d :: cs) = true := by
            intro hblanks
            have hlast := List.getLast?_eq_getLast_of_ne_nil (List.cons_ne_nil d cs)
            have hblank := onlyBlanks_last hblanks hlast
            rw [hrest _ hlast] at hblank
            cases hblank
          rw [stripTrailing, if_neg hstay, ih hrest]

/-- Where the last byte is not blank, there is nothing but blanks behind the first word only if there
is nothing. -/
theorem firstWord_eq (hrest : (firstWord cs).2.dropWhile isBlank = [])
    (h : ∀ c, cs.getLast? = some c → isBlank c = false) : (firstWord cs).1 = cs := by
  have happend := firstWord_append cs
  rw [List.dropWhile_eq_nil_iff] at hrest
  cases hlast : (firstWord cs).2.getLast? with
  | none =>
      rw [List.getLast?_eq_none_iff.mp hlast, List.append_nil] at happend
      exact happend
  | some c =>
      have hblank := hrest c (List.mem_of_getLast? hlast)
      rw [← happend, List.getLast?_append, hlast] at h
      simp [h c rfl] at hblank

theorem Line.Plain.strip_marks (h : l.Plain) : strip (marks l.text).1 = l.text := by
  have hlast : ∀ c, (quoted (l.text.map (·, false))).getLast? = some c → isBlank c = false := by
    intro c hc
    rw [getLast?_quoted, List.getLast?_map, Option.map_map] at hc
    exact h.last c (by simpa using hc)
  have hvalue : (if (firstWord (quoted (l.text.map (·, false)))).2.dropWhile isBlank = [] then
      (firstWord (quoted (l.text.map (·, false)))).1
      else stripTrailing (quoted (l.text.map (·, false)))) = quoted (l.text.map (·, false)) := by
    split
    case isTrue hrest => exact firstWord_eq hrest hlast
    case isFalse => exact stripTrailing_of_last hlast
  have htext : dequoted (quoted (l.text.map (·, false))) = l.text := by
    rw [dequoted_quoted, List.map_map]
    exact List.map_id _
  have hmark : quoted (l.text.map (·, false)) ≠ [1] := by
    intro hone
    rw [hone] at htext
    rw [← htext] at hone
    cases hone
  rw [marks_of_notMem h.backslash, strip]
  simp only [dropWhile_isBlank (quoted_head h.head), hvalue, if_neg hmark, htext]

theorem replies_of_plain (h : ∀ l ∈ input, l.Plain) : replies input = input.map Line.text := by
  unfold replies
  induction input with
  | nil => rfl
  | cons l ls ih =>
      have hl : l.Plain := h l (by simp)
      have hopen : ¬(marks l.text).2 = true := by
        rw [marks_of_notMem hl.backslash]
        exact Bool.false_ne_true
      rw [joined, if_neg hopen, List.map_cons, List.map_cons, hl.strip_marks,
        ih fun l' hl' => h l' (by simp [hl'])]

end KernelTrg.Kbuild
