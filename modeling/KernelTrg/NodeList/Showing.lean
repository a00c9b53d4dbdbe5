import KernelTrg.NodeList.Nodes
import KernelTrg.Lib.Shell

/-!
# Showing and searching the list

`showlist` and `findinlist_letter` go once around the list, from its head to its head. What
they write is told by the nodes in their order, and the rows of `showlist` tell the nodes.
-/

namespace KernelTrg.NodeList

open LinkRing Bytes Shell

/-! ## The functions -/

/-- `pr_info`, with the prefix of `pr_fmt`. -/
def prInfo (func text : List UInt8) : List UInt8 := ascii "list:" ++ func ++ ascii "(): " ++ text

/-- `%9d` -/
def column (z : Int32) : List UInt8 := (signedDecimal z.toInt).leftpad 9 32

/-- `%c` -/
def char (c : Int8) : List UInt8 := [c.toUInt8]

def headerText : List UInt8 := prInfo (ascii "showlist") (ascii "   val1   |   val2   | letter\n")

def rowText (v : Node) : List UInt8 :=
  prInfo (ascii "showlist")
    (column v.ival1 ++ ascii " " ++ column v.ival2 ++ ascii "   " ++ char v.letter ++ ascii "\n")

/-- The loop of `showlist` from `curr` on; a link to no node is an oops. -/
def showNodes (m : Mem) : Nat → Ptr Addr → Option (List (List UInt8))
  | 0, _ => none
  | _ + 1, .head => some []
  | fuel + 1, .node curr =>
      (showNodes m fuel (m.links.next (.node curr))).map (rowText (m.node curr) :: ·)
  | _ + 1, _ => none

/-- What `showlist` writes, a text for each `pr_info`. -/
def showlist (fuel : Nat) (m : Mem) : Option (List (List UInt8)) :=
  if m.links.next .head = .head then some []
  else (showNodes m fuel (m.links.next .head)).map (headerText :: ·)

def searchText (char2locate : Int8) : List UInt8 :=
  prInfo (ascii "findinlist_letter")
    (ascii "Searching list for letter '" ++ char char2locate ++ ascii "'...\n")

def foundText (char2locate : Int8) (i : Int32) (v : Node) : List UInt8 :=
  prInfo (ascii "findinlist_letter")
    (ascii "found '" ++ char char2locate ++ ascii "' @ node #" ++ signedDecimal i.toInt ++
      ascii ":\n" ++ column v.ival1 ++ ascii " " ++ column v.ival2 ++ ascii "   _" ++
      char v.letter ++ ascii "_\n")

def missedText (char2locate : Int8) : List UInt8 :=
  prInfo (ascii "findinlist_letter")
    (ascii "Didn't find '" ++ char char2locate ++ ascii "' in list\n")

def findNodes (char2locate : Int8) (m : Mem) :
    Nat → Ptr Addr → Int32 → Bool → Option (List (List UInt8))
  | 0, _, _, _ => none
  | _ + 1, .head, _, found => some (if found then [] else [missedText char2locate])
  | fuel + 1, .node curr, i, found =>
      if (m.node curr).letter = char2locate then
        (findNodes char2locate m fuel (m.links.next (.node curr)) (i + 1) true).map
          (foundText char2locate i (m.node curr) :: ·)
      else findNodes char2locate m fuel (m.links.next (.node curr)) (i + 1) found
  | _ + 1, _, _, _ => none

def findinlistLetter (fuel : Nat) (m : Mem) (char2locate : Int8) : Option (List (List UInt8)) :=
  if m.links.next .head = .head then some []
  else (findNodes char2locate m fuel (m.links.next .head) 0 false).map
    (searchText char2locate :: ·)

/-! ## What they should write -/

/-- A row for each node, behind a header if there is any. -/
def shown (nodes : List Node) : List (List UInt8) :=
  if nodes = [] then [] else headerText :: nodes.map rowText

/-- The nodes with the letter, each with its place, the first place being `i`. -/
def hits (c : Int8) (i : Nat) (nodes : List Node) : List (List UInt8) :=
  ((nodes.zipIdx i).filter (·.1.letter = c)).map fun p => foundText c (.ofNat p.2) p.1

/-- The nodes with the letter, or word that there is none. -/
def located (c : Int8) (nodes : List Node) : List (List UInt8) :=
  if nodes = [] then []
  else searchText c :: (hits c 0 nodes ++ if c ∈ nodes.map Node.letter then [] else [missedText c])

variable {m : Mem} {nodes : List Node} {c : Int8} {as bs : List Addr} {v v' : Node}

/-! ## Around the list -/

theorem showNodes_ring (h : IsRing m.links (as ++ bs)) (k : Nat) :
    showNodes m (bs.length + 1 + k) (front bs) = some (bs.map fun b => rowText (m.node b)) := by
  induction bs generalizing as with
  | nil =>
      rw [List.length_nil, Nat.zero_add, Nat.add_comm]
      rfl
  | cons b bs ih =>
      have hnext : m.links.next (.node b) = front bs := h.next_node
      have hfuel : (b :: bs).length + 1 + k = bs.length + 1 + k + 1 := by
        rw [List.length_cons]
        omega
      have hring : IsRing m.links (as ++ [b] ++ bs) := by
        rw [List.append_assoc]
        exact h
      rw [hfuel, front, showNodes, hnext, ih hring]
      rfl

/-- The rows that are still to come, and the last word on it. -/
theorem findNodes_ring (h : IsRing m.links (as ++ bs)) (k i : Nat) (found : Bool) :
    findNodes c m (bs.length + 1 + k) (front bs) (.ofNat i) found =
      some (hits c i (bs.map m.node) ++
        if found = true ∨ c ∈ bs.map fun b => (m.node b).letter then [] else [missedText c]) := by
  induction bs generalizing as i found with
  | nil =>
      rw [List.length_nil, Nat.zero_add, Nat.add_comm]
      cases found <;> rfl
  | cons b bs ih =>
      have hnext : m.links.next (.node b) = front bs := h.next_node
      have hfuel : (b :: bs).length + 1 + k = bs.length + 1 + k + 1 := by
        rw [List.length_cons]
        omega
      have hplace : Int32.ofNat i + 1 = .ofNat (i + 1) := by
        rw [Int32.ofNat_add]
        rfl
      have hring : IsRing m.links (as ++ [b] ++ bs) := by
        rw [List.append_assoc]
        exact h
      rw [hfuel, front, findNodes, hnext, hplace]
      by_cases hletter : (m.node b).letter = c
      · rw [if_pos hletter, ih hring (i + 1) true]
        simp [hits, hletter]
      · have hother : c ≠ (m.node b).letter := fun e => hletter e.symm
        rw [if_neg hletter, ih hring (i + 1) found]
        simp [hits, hletter, hother]

/-! ## Reading the rows -/

def numberColumn (z : Int32) : Column where
  text := signedDecimal z.toInt
  ne_nil := by
    unfold signedDecimal
    split
    · exact List.cons_ne_nil _ _
    · exact decimal_ne_nil _
  blank_notMem := fun h => absurd (mem_signedDecimal h) (by decide)
  tab_notMem := fun h => absurd (mem_signedDecimal h) (by decide)
  newline_notMem := fun h => absurd (mem_signedDecimal h) (by decide)

theorem rowText_eq (v : Node) :
    rowText v = prInfo (ascii "showlist")
      (tableRow [(9 - (signedDecimal v.ival1.toInt).length, numberColumn v.ival1),
        (9 - (signedDecimal v.ival2.toInt).length, numberColumn v.ival2)] [32, 32] ++
        [v.letter.toUInt8, 10]) := by
  have hblank : ascii " " = [32] := by decide
  have hblanks : ascii "   " = [32, 32, 32] := by decide
  have hnewline : ascii "\n" = [10] := by decide
  unfold rowText
  rw [hblank, hblanks, hnewline]
  simp only [column, List.leftpad, tableRow, numberColumn, char, List.foldr_cons, List.foldr_nil,
    List.append_assoc, List.cons_append, List.nil_append]

theorem rowText_inj (h : rowText v = rowText v') : v = v' := by
  rw [rowText_eq, rowText_eq] at h
  rcases List.append_inj' (List.append_cancel_left h) rfl with ⟨hfront, hback⟩
  have hwords := congrArg awkFields hfront
  rw [awkFields_tableRow, awkFields_tableRow] at hwords
  have hnumbers := List.append_cancel_right hwords
  simp only [numberColumn, List.map_cons, List.map_nil, List.cons.injEq, and_true] at hnumbers
  have hletter := (List.cons.inj hback).1
  cases v
  cases v'
  simp only [Node.mk.injEq]
  exact ⟨Int32.toInt_inj.mp (signedDecimal_inj hnumbers.1),
    Int32.toInt_inj.mp (signedDecimal_inj hnumbers.2), congrArg UInt8.toInt8 hletter⟩

theorem shown_inj {nodes nodes' : List Node} (h : shown nodes = shown nodes') : nodes = nodes' := by
  unfold shown at h
  split at h <;> split at h
  · next h₁ h₂ => rw [h₁, h₂]
  · cases h
  · cases h
  · exact List.map_injective_iff.mpr (fun _ _ => rowText_inj) (List.cons.inj h).2

/-! ## Any list that is built -/

theorem Built.front_eq_head (h : Built m nodes) : m.links.next .head = .head ↔ nodes = [] := by
  rw [h.ring.next_head, ← h.holds, List.map_eq_nil_iff]
  cases List.range m.brk with
  | nil => exact iff_of_true rfl rfl
  | cons b bs => exact iff_of_false nofun nofun

theorem Built.length_nodes (h : Built m nodes) : (List.range m.brk).length = nodes.length := by
  rw [← h.holds, List.length_map]

theorem Built.showlist_eq (h : Built m nodes) (k : Nat) :
    showlist (nodes.length + 1 + k) m = some (shown nodes) := by
  unfold showlist shown
  by_cases hnil : nodes = []
  · rw [if_pos (h.front_eq_head.mpr hnil), if_pos hnil]
  · have hring : IsRing m.links ([] ++ List.range m.brk) := h.ring
    have hshow := showNodes_ring hring k
    rw [h.length_nodes] at hshow
    rw [if_neg (fun e => hnil (h.front_eq_head.mp e)), if_neg hnil, h.ring.next_head, hshow,
      ← h.holds, List.map_map]
    rfl

theorem Built.findinlistLetter_eq (h : Built m nodes) (k : Nat) (c : Int8) :
    findinlistLetter (nodes.length + 1 + k) m c = some (located c nodes) := by
  unfold findinlistLetter located
  by_cases hnil : nodes = []
  · rw [if_pos (h.front_eq_head.mpr hnil), if_pos hnil]
  · have hring : IsRing m.links ([] ++ List.range m.brk) := h.ring
    have hfind := findNodes_ring (c := c) hring k 0 false
    rw [h.length_nodes] at hfind
    have hzero : (0 : Int32) = .ofNat 0 := rfl
    rw [if_neg (fun e => hnil (h.front_eq_head.mp e)), if_neg hnil, h.ring.next_head, hzero, hfind,
      ← h.holds, List.map_map]
    simp only [Bool.false_eq_true, false_or]
    rfl

/-- Whatever calls build the list and whichever of their allocations fail, `showlist` and
`findinlist_letter` end. One writes a row for each node, in order, which tell all that is on the
list; the other reports the nodes with the letter and their places in these rows, or that there is
none. -/
theorem built_list_shows (calls : List Add) (c : Int8) (k : Nat) :
    showlist ((added calls).length + 1 + k) (addAll Mem.init calls) =
        some (shown (added calls)) ∧
      findinlistLetter ((added calls).length + 1 + k) (addAll Mem.init calls) c =
        some (located c (added calls)) ∧
      ∀ nodes, shown nodes = shown (added calls) → nodes = added calls := by
  have hbuilt := built_init.addAll calls
  rw [List.nil_append] at hbuilt
  exact ⟨hbuilt.showlist_eq k, hbuilt.findinlistLetter_eq k c, fun _ h => shown_inj h⟩

end KernelTrg.NodeList
