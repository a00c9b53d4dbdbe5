import KernelTrg.Lib.Bytes

/-!
# The hex dump

`hex_dump` fills a line buffer of 16 bytes, once in hexadecimal and once as text, and
prints it when it is full and at the end. Each line starts with a label, formatted in a
`temp` array of 8 bytes, which has no room for seven digits.
-/

namespace KernelTrg.MmapSimple

open Bytes

/-- `"+%06d"`. -/
def label (n : Int32) : List UInt8 :=
  43 :: if n.toInt < 0 then 45 :: (decimal n.toInt.natAbs).leftpad 5 48
    else (decimal n.toInt.natAbs).leftpad 6 48

/-- `temp` has room for the label and its NUL. -/
def HasRoom (n : Int32) : Prop := (label n).length + 1 ≤ 8

instance (n : Int32) : Decidable (HasRoom n) := inferInstanceAs (Decidable (_ ≤ _))

/-- `sprintf(temp, "+%06d", n)`; `none` where it writes behind `temp`. -/
def formatLabel (n : Int32) : Option (List UInt8) := if HasRoom n then some (label n) else none

/-- `"%02x"` of a byte. -/
def hexByte (b : UInt8) : List UInt8 := [hexDigit (b.toNat / 16), hexDigit (b.toNat % 16)]

/-- The byte itself where it can be shown, else a dot. -/
def shown (b : UInt8) : UInt8 := if 31 < b ∧ b < 127 then b else 46

/-- The column of the text, in front of which a line has its label and 16 hex fields. -/
abbrev asciiColumn : Nat := 58

/-- `memset(buffer, ' ', 58 + 16)`. -/
def blankLine (buffer : List UInt8) : List UInt8 :=
  store 0 buffer 0 (List.replicate (asciiColumn + 16) 32)

/-- The variables of `hex_dump`, what it has printed, the labels it has formatted in `temp`
and the bytes it has read. -/
structure Dump where
  buffer : List UInt8
  j : Nat
  out : List UInt8
  labels : List (List UInt8)
  dumped : List UInt8
deriving DecidableEq, Repr

def ruler : List UInt8 :=
  ascii "        +0          +4          +8          +c            0   4   8   c   \n"

/-- The line that `verbose` adds where there is a caption, for data at the address `addr`. -/
def heading (caption : Option (List UInt8)) (verbose : Bool) (size : Int32) (addr : Nat) :
    List UInt8 :=
  match verbose, caption with
  | true, some caption =>
      ascii "---------> " ++ caption ++ ascii " <--------- (" ++ signedDecimal size.toInt ++
        ascii " bytes from 0x" ++ hexadecimal addr ++ ascii ")\n"
  | _, _ => []

/-- Up to the loop: the first line is blank but for its label. -/
def Dump.start (lbl out : List UInt8) : Dump where
  buffer := store 0 (store 0 (blankLine (List.replicate 128 0)) (asciiColumn + 16) [10, 0]) 0
    (lbl.take 7)
  j := 0
  out := out ++ ruler
  labels := [lbl]
  dumped := []

/-- The full line is printed and the next one started. -/
def Dump.newLine (st : Dump) (lbl : List UInt8) : Dump :=
  { st with
    buffer := store 0 (blankLine st.buffer) 0 (lbl.take 7)
    j := 0
    out := st.out ++ cstring st.buffer
    labels := st.labels ++ [lbl] }

def Dump.put (st : Dump) (b : UInt8) : Dump :=
  { st with
    buffer := store 0 (store 0 st.buffer (8 + st.j * 3) (hexByte b)) (asciiColumn + st.j) [shown b]
    j := st.j + 1
    dumped := st.dumped ++ [b] }

/-- The body of the loop. What C leaves undefined is `none`: a label without room in `temp`, or a
read of a byte that `data` does not have. -/
def hexDumpStep (data : Nat → Option UInt8) (offset : Int32) (st : Dump) (i : Nat) :
    Option Dump := do
  let st ← if st.j = 16 then (formatLabel (Int32.ofNat i + offset)).map st.newLine else some st
  (data i).map st.put

def Dump.finish (st : Dump) : Dump :=
  if st.j ≠ 0 then { st with out := st.out ++ cstring st.buffer } else st

def hexDump (data : Nat → Option UInt8) (addr : Nat) (offset size : Int32)
    (caption : Option (List UInt8)) (verbose : Bool) : Option Dump := do
  let lbl ← formatLabel offset
  let st ← (List.range size.toInt.toNat).foldlM (hexDumpStep data offset)
    (Dump.start lbl (heading caption verbose size addr))
  pure st.finish

end KernelTrg.MmapSimple
