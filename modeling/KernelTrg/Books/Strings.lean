import KernelTrg.Books.Refinement
import KernelTrg.Lib.Bytes

/-!
# The strings of a book

`strncpy` into a zeroed array leaves a NUL behind the string only where the string is
shorter than the array. Whatever a later call makes of the entry, its arrays are copied
as they are, so that `print_book` stays within them exactly for such strings.
-/

namespace KernelTrg.Books

open Bytes

/-! ## Printing -/

/-- `%s` of a whole array; `none` where it has no NUL and the read goes on behind it. -/
def percentS (buf : List UInt8) : Option (List UInt8) :=
  if 0 ∈ buf then some (cstring buf) else none

/-- The line that `print_book` logs, with the address of the object. -/
def bookLine (id : Int) (name author : List UInt8) (borrow : Int) (addr : Nat) : List UInt8 :=
  ascii "id : " ++ signedDecimal id ++ ascii ", name : " ++ name ++ ascii ", author : " ++ author ++
    ascii ", borrow : " ++ signedDecimal borrow ++ ascii ", addr : " ++ hexadecimal addr ++ [10]

/-- `print_book`; `addr` is where the allocations are in memory. -/
def printBook (addr : Addr → Nat) (s : Module) (id : Int) : Option (List UInt8) :=
  match lookup s.mem id with
  | none => none
  | some none => some (ascii "not exist book\n")
  | some (some b) =>
      if s.mem.Live b then
        let v := s.mem.book b
        (percentS v.name).bind fun name =>
          (percentS v.author).map fun author => bookLine v.id name author v.borrow (addr b)
      else none

/-! ## A string in an array -/

/-- The array ends the string with a NUL and holds as much of it as fits. -/
structure Holds (buf s : List UInt8) : Prop where
  length : buf.length = nameSize
  ended : 0 ∈ buf
  prefix_eq : cstring buf = (cstring s).take (nameSize - 1)

theorem cstring_ne_zero {s : List UInt8} : 0 ∉ cstring s := notMem_takeWhile

theorem nul_mem_strncpy {s : List UInt8} {n : Nat} : 0 ∈ strncpy n s ↔ (cstring s).length < n := by
  have hfront : 0 ∉ (cstring s).take n := fun hmem => cstring_ne_zero (List.mem_of_mem_take hmem)
  change 0 ∈ (cstring s).take n ++ List.replicate (n - ((cstring s).take n).length) 0 ↔ _
  rw [List.mem_append, List.mem_replicate, List.length_take]
  constructor
  · intro h
    rcases h with hmem | ⟨hgap, -⟩
    · exact absurd hmem hfront
    · omega
  · intro hlt
    exact .inr ⟨by omega, rfl⟩

theorem cstring_strncpy {s : List UInt8} {n : Nat} (h : (cstring s).length < n) :
    cstring (strncpy n s) = cstring s := by
  obtain ⟨gap, hgap⟩ : ∃ gap, n - (cstring s).length = gap + 1 :=
    ⟨n - (cstring s).length - 1, by omega⟩
  change cstring ((cstring s).take n ++ List.replicate (n - ((cstring s).take n).length) 0) = _
  rw [List.take_of_length_le (by omega), hgap, List.replicate_succ,
    cstring_append_nul cstring_ne_zero]

/-- `strncpy` into an array of the object leaves the string in it exactly where it is shorter. -/
theorem holds_strncpy_iff {s : List UInt8} :
    Holds (strncpy nameSize s) s ↔ (cstring s).length < nameSize := by
  constructor
  · intro h
    exact nul_mem_strncpy.mp h.ended
  · intro h
    refine ⟨strncpy_length _ _, nul_mem_strncpy.mpr h, ?_⟩
    rw [cstring_strncpy h, List.take_of_length_le (by omega)]

/-! ## A book over its calls -/

/-- The first book with the id is live, its arrays hold the two strings, and `print_book`
prints just what they hold. -/
structure Kept (addr : Addr → Nat) (s : Module) (id : Int) (name author : List UInt8) : Prop where
  book : ∃ b, lookup s.mem id = some (some b) ∧ s.mem.Live b ∧
    Holds (s.mem.book b).name name ∧ Holds (s.mem.book b).author author ∧
    printBook addr s id = some (bookLine id ((cstring name).take (nameSize - 1))
      ((cstring author).take (nameSize - 1)) (s.mem.book b).borrow (addr b))

def Call.Spares (id : Int) : Call → Prop
  | .addBook id' .. | .deleteBook id' _ => id' ≠ id
  | _ => True

variable {s : Module} {c : Catalogue} {e : Entry} {id : Int} {addr : Addr → Nat}

theorem Call.Spares.keeps {call : Call} (hspare : call.Spares id) (he : c.findFirst id = some e) :
    ∃ borrowed, (call.apply c).1.findFirst id = some { e with borrowed } := by
  cases call with
  | addBook id' name author alloc =>
      exact ⟨e.borrowed, (Catalogue.findFirst_add (show id' ≠ id from hspare)).trans he⟩
  | borrowBook id' async alloc => exact Catalogue.findFirst_switch he
  | returnBook id' async alloc => exact Catalogue.findFirst_switch he
  | deleteBook id' async =>
      exact ⟨e.borrowed, (Catalogue.findFirst_delete (show id' ≠ id from hspare)).trans he⟩
  | isBorrowedBook id' => exact ⟨e.borrowed, he⟩
  | callback => exact ⟨e.borrowed, he⟩

theorem applyCalls_keeps {calls : List Call} (hspare : ∀ call ∈ calls, call.Spares id)
    (he : c.findFirst id = some e) :
    ∃ borrowed, (applyCalls c calls).1.findFirst id = some { e with borrowed } := by
  induction calls generalizing c e with
  | nil => exact ⟨e.borrowed, he⟩
  | cons call calls ih =>
      obtain ⟨borrowed, hcall⟩ := (hspare call (by simp)).keeps he
      exact ih (e := { e with borrowed }) (fun call' hmem => hspare call' (by simp [hmem])) hcall

theorem Refines.lookup_entry (h : Refines s c) (he : c.findFirst id = some e) :
    ∃ b, lookup s.mem id = some (some b) ∧ s.mem.Live b ∧ s.mem.book b = e.toBook := by
  obtain ⟨xs, h⟩ := h
  rcases lookup_cases h.shown id with
    ⟨-, hne⟩ | ⟨as, b, bs, ca, e', cb, hl, hxs, hc, -, hb, -, hid, hca⟩
  · rw [Catalogue.findFirst_none hne] at he
    cases he
  · rw [hc, Catalogue.findFirst_split hca hid] at he
    cases he
    exact ⟨b, hl, h.shown.live b (by simp [hxs]), hb⟩

/-- A book is kept exactly where its entry's arrays hold the strings. -/
theorem Refines.kept_iff (h : Refines s c) (he : c.findFirst id = some e)
    (addr : Addr → Nat) (name author : List UInt8) :
    Kept addr s id name author ↔ Holds e.name name ∧ Holds e.author author := by
  obtain ⟨b, hlookup, hlive, hbook⟩ := h.lookup_entry he
  have hid : e.id = id := by simpa using List.find?_some he
  constructor
  · intro h
    rcases h with ⟨b', hlookup', -, hname, hauthor, -⟩
    rw [hlookup] at hlookup'
    cases hlookup'
    rw [hbook] at hname hauthor
    exact ⟨hname, hauthor⟩
  · intro h
    rcases h with ⟨hname, hauthor⟩
    refine ⟨b, hlookup, hlive, by rw [hbook]; exact hname, by rw [hbook]; exact hauthor, ?_⟩
    have hprint : printBook addr s id = (percentS e.name).bind fun name =>
        (percentS e.author).map fun author =>
          bookLine e.id name author (s.mem.book b).borrow (addr b) := by
      simp only [printBook, hlookup, if_pos hlive, hbook]
      rfl
    rw [hprint, percentS, percentS, if_pos hname.ended, if_pos hauthor.ended, hname.prefix_eq,
      hauthor.prefix_eq, hid]
    rfl

theorem applyCalls_append (c : Catalogue) (calls calls' : List Call) :
    (applyCalls c (calls ++ calls')).1 = (applyCalls (applyCalls c calls).1 calls').1 := by
  induction calls generalizing c with
  | nil => rfl
  | cons call calls ih => exact ih (call.apply c).1

/-- Whatever calls come before, and whatever others after: the strings of a book are kept
exactly where both are shorter than their arrays. -/
theorem strings_kept_iff (before after : List Call) (name author : List UInt8)
    (hspare : ∀ call ∈ after, call.Spares id) :
    (∃ s rs, runCalls Module.init (before ++ .addBook id name author true :: after) =
        some (s, rs) ∧ Kept addr s id name author) ↔
      (cstring name).length < nameSize ∧ (cstring author).length < nameSize := by
  obtain ⟨s, hrun, href⟩ :=
    runCalls_refines refines_init (before ++ .addBook id name author true :: after)
  have hentry : ∃ borrowed, (applyCalls []
      (before ++ .addBook id name author true :: after)).1.findFirst id =
        some ⟨id, strncpy nameSize name, strncpy nameSize author, borrowed⟩ := by
    rw [applyCalls_append]
    let e : Entry := ⟨id, strncpy nameSize name, strncpy nameSize author, false⟩
    have hadd : ((applyCalls [] before).1.add e true).findFirst id = some e :=
      Catalogue.findFirst_cons_of_eq rfl
    exact applyCalls_keeps hspare hadd
  obtain ⟨borrowed, he⟩ := hentry
  have hkept := href.kept_iff he addr name author
  rw [← holds_strncpy_iff, ← holds_strncpy_iff, ← hkept]
  constructor
  · intro h
    rcases h with ⟨s', rs, hrun', hk⟩
    rw [hrun] at hrun'
    cases hrun'
    exact hk
  · intro hk
    exact ⟨s, _, hrun, hk⟩

/-- A borrowed and returned book with a name of 63 bytes, the longest that is kept. -/
theorem longest_name_kept : ∃ s rs,
    runCalls Module.init ([] ++ .addBook 0 (List.replicate 63 97) [106, 98] true ::
      [.borrowBook 0 true true, .callback, .returnBook 0 false true]) = some (s, rs) ∧
    Kept (fun b => b) s 0 (List.replicate 63 97) [106, 98] :=
  (strings_kept_iff [] [.borrowBook 0 true true, .callback, .returnBook 0 false true]
    (List.replicate 63 97) [106, 98] (by simp [Call.Spares])).mpr (by decide)

/-- A name of 64 bytes fills its array, and `print_book` reads on behind it. -/
theorem full_name_unended : ∃ s rs,
    runCalls Module.init [.addBook 0 (List.replicate 64 97) [106, 98] true] = some (s, rs) ∧
    lookup s.mem 0 = some (some 0) ∧ 0 ∉ (s.mem.book 0).name ∧
    printBook (fun b => b) s 0 = none ∧
    ¬Kept (fun b => b) s 0 (List.replicate 64 97) [106, 98] := by
  let s := addBook Module.init 0 (List.replicate 64 97) [106, 98] true
  have hprint : printBook (fun b => b) s 0 = none := by decide
  refine ⟨s, [none], rfl, by decide, by decide, hprint, ?_⟩
  intro h
  rcases h with ⟨b, -, -, -, -, hkept⟩
  rw [hprint] at hkept
  cases hkept

end KernelTrg.Books
