import KernelTrg.Lib.Bytes

/-!
# The compound commands of a script

bash reads a compound command to its end before it runs any of it. The reader follows quotes,
comments and the reserved words of groups and loops (a quote inside a `$(` that stands in double
quotes is left out).
-/

namespace KernelTrg.Compound

open Bytes

inductive Mode where
  | plain
  | single
  | double
  | comment
deriving DecidableEq, Repr

/-- Where the reader is, the word it is in, and the reserved words that are due, innermost
first. -/
structure Reader where
  mode : Mode
  escaped : Bool
  word : List UInt8
  due : List (List UInt8)
deriving DecidableEq, Repr

def Reader.start : Reader := ⟨.plain, false, [], []⟩

/-- A word is complete: it may open or close a compound command. -/
def Reader.endWord (r : Reader) : Reader :=
  { r with
    word := []
    due :=
      if r.word = ascii "\x7b" then ascii "\x7d" :: r.due
      else if r.word = ascii "do" then ascii "done" :: r.due
      else if r.due.head? = some r.word then r.due.tail
      else r.due }

/-- Blank, tab, newline and `;&|()<>` end a word. -/
def isMeta (c : UInt8) : Bool := c ∈ [32, 9, 10, 59, 38, 124, 40, 41, 60, 62]

def Reader.next (r : Reader) (c : UInt8) : Reader :=
  if r.escaped then { r with escaped := false, word := r.word ++ [92, c] }
  else
    match r.mode with
    | .comment => if c = 10 then { r with mode := .plain } else r
    | .single => if c = 39 then { r with mode := .plain } else r
    | .double =>
        if c = 92 then { r with escaped := true }
        else if c = 34 then { r with mode := .plain }
        else r
    | .plain =>
        if c = 92 then { r with escaped := true }
        else if c = 39 then { r with mode := .single, word := r.word ++ [c] }
        else if c = 34 then { r with mode := .double, word := r.word ++ [c] }
        else if c = 35 ∧ r.word = [] then { r with mode := .comment }
        else if isMeta c then r.endWord
        else { r with word := r.word ++ [c] }

def Reader.read (r : Reader) (text : List UInt8) : Reader := text.foldl Reader.next r

/-- What is still due at the end of a script: bash reports a syntax error where it is not
empty. -/
def dueAtEnd (script : List UInt8) : List (List UInt8) := ((Reader.start.read script).next 10).due

end KernelTrg.Compound
