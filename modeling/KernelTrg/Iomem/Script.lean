import KernelTrg.Lib.Shell
import Mathlib.Logic.Function.Basic

/-!
# The memory map script

`start` of the script: the length of the whole map from the first and the last line of
`/proc/iomem`, then a label and a size for every line in one flat array, of which
`graphit` takes every two elements for a record.
-/

namespace KernelTrg.Iomem

open Bytes Shell

/-- The files beside the script, which has to be started there. -/
def scriptDir : List (List UInt8) :=
  [ascii "color.sh", ascii "common.sh", ascii "err_common.sh", ascii "phymap_iomem.sh"]

/-- The global variables that are set; an element of the array that is not set is empty. -/
structure Globals where
  gArray : Nat → List UInt8
  gRow : Nat
  gTotalLen : Int64
  numspc : Nat

def Globals.init : Globals := ⟨fun _ => [], 0, 0, 0⟩

/-- `$((16#text))` stored in a variable, which stays empty after an error and then counts
as 0. -/
def decValue (text : List UInt8) : Int64 := (arith16 text).getD 0

def getRangeInfo (g : Globals) (text : List UInt8) : Globals :=
  let parStart := cut 58 1 (firstLine text)
  let start := cut 45 1 parStart
  -- `sed 's/ //'` takes the first blank away
  let parEnd := (cut 58 1 (lastLine text)).erase 32
  let stop := cut 45 2 parEnd
  { g with gTotalLen := decValue stop - decValue start }

def rangeSize (par : List UInt8) : Int64 :=
  let paStart := ltrim (cut 45 1 par)
  let paEnd := cut 45 2 par
  decValue paEnd - decValue paStart

def interpretIomemRec (g : Globals) (args : List (List UInt8)) : Globals :=
  let line := List.intercalate [32] args
  let par := cut 58 1 line
  let paName := cut 58 2 line
  let numspc := (cut 45 1 par).count 32
  let gArray := Function.update g.gArray g.gRow paName
  let gRow := g.gRow + 1
  let gArray := Function.update gArray gRow (signedDecimal (rangeSize par).toInt)
  let gRow := gRow + 1
  { g with gArray, gRow, numspc }

def unquoted (inBracket : List UInt8 → UInt8 → Bool) (text : List UInt8) : List (List UInt8) :=
  (words text).flatMap (expand inBracket scriptDir)

/-- `start`, up to `graphit`, for the text of `/proc/iomem`. -/
def start (inBracket : List UInt8 → UInt8 → Bool) (text : List UInt8) : Globals :=
  (unquoted inBracket text).foldl
    (fun g line => interpretIomemRec g (unquoted inBracket line))
    (getRangeInfo Globals.init text)

/-- The labels and sizes that the loop of `graphit` reads, for `i` from 0 in steps of 2 as
long as it is less than `gRow`. -/
def graphitPairs (g : Globals) : List (List UInt8 × List UInt8) :=
  (List.range ((g.gRow + 1) / 2)).map fun n => (g.gArray (2 * n), g.gArray (2 * n + 1))

end KernelTrg.Iomem
