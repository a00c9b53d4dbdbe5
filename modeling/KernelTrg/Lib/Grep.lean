import KernelTrg.Lib.Shell
import Mathlib.Data.List.Forall2

/-!
# Whole-word search

A basic regular expression of ordinary characters, `.` and a `$` at its end, searched for in a
line with no letter, digit or underscore on either side of the match.
-/

namespace KernelTrg.Grep

open Bytes Shell

def isWord (c : UInt8) : Bool :=
  (48 ≤ c && c ≤ 57) || (65 ≤ c && c ≤ 90) || (97 ≤ c && c ≤ 122) || c = 95

inductive Atom where
  | lit (c : UInt8)
  | any
deriving DecidableEq, Repr

def Atom.Matches : Atom → UInt8 → Prop
  | .lit a, c => a = c
  | .any, _ => True

/-- An expression: its atoms, and whether it has to end where the line does. -/
structure Pattern where
  atoms : List Atom
  anchored : Bool
deriving DecidableEq, Repr

def atom (c : UInt8) : Atom := if c = 46 then .any else .lit c

/-- A text without `*`, `[`, `\` and `^` read as an expression. -/
def parse (text : List UInt8) : Pattern :=
  if text.getLast? = some 36 then ⟨text.dropLast.map atom, true⟩ else ⟨text.map atom, false⟩

/-- What follows the atoms at the start of a text. -/
def strip : List Atom → List UInt8 → Option (List UInt8)
  | [], text => some text
  | .lit a :: atoms, c :: text => if a = c then strip atoms text else none
  | .any :: atoms, _ :: text => strip atoms text
  | _ :: _, [] => none

def isBoundary (c : Option UInt8) : Bool := !c.any isWord

/-- The expression matches at the start of a text, `prev` being the character in front. -/
def starts (p : Pattern) (prev : Option UInt8) (line : List UInt8) : Bool :=
  isBoundary prev &&
    match strip p.atoms line with
    | some rest => isBoundary rest.head? && (!p.anchored || rest = [])
    | none => false

def search (p : Pattern) (prev : Option UInt8) : List UInt8 → Bool
  | [] => starts p prev []
  | c :: cs => starts p prev (c :: cs) || search p (some c) cs

def grepW (text : List UInt8) (lines : List (List UInt8)) : Bool :=
  lines.any (search (parse text) none)

/-- The expression has a match in the line with no character of a word on either side. -/
def Occurs (p : Pattern) (line : List UInt8) : Prop :=
  ∃ front found back, line = front ++ (found ++ back) ∧ List.Forall₂ Atom.Matches p.atoms found ∧
    (p.anchored = true → back = []) ∧ isBoundary front.getLast? = true ∧
    isBoundary back.head? = true

variable {p : Pattern} {prev : Option UInt8} {line text : List UInt8} {atoms : List Atom}
  {rest : List UInt8}

theorem strip_eq_some :
    strip atoms line = some rest ↔ ∃ found, line = found ++ rest ∧
      List.Forall₂ Atom.Matches atoms found := by
  induction atoms generalizing line with
  | nil =>
      constructor
      · intro h
        exact ⟨[], Option.some.inj h, .nil⟩
      · intro h
        rcases h with ⟨found, rfl, hfound⟩
        cases hfound
        rfl
  | cons a atoms ih =>
      cases line with
      | nil =>
          constructor
          · intro h
            cases a <;> cases h
          · intro h
            rcases h with ⟨found, hline, hfound⟩
            cases hfound
            cases hline
      | cons c cs =>
          have hstep : strip (a :: atoms) (c :: cs) = some rest ↔
              a.Matches c ∧ strip atoms cs = some rest := by
            cases a with
            | lit b => simp [strip, Atom.Matches]
            | any => simp [strip, Atom.Matches]
          rw [hstep, ih]
          constructor
          · intro h
            rcases h with ⟨hc, found, rfl, hfound⟩
            exact ⟨c :: found, rfl, .cons hc hfound⟩
          · intro h
            rcases h with ⟨found, hline, hfound⟩
            cases hfound with
            | cons hc hrest =>
                cases hline
                exact ⟨hc, _, rfl, hrest⟩

theorem starts_iff :
    starts p prev line = true ↔
      ∃ found back, line = found ++ back ∧ List.Forall₂ Atom.Matches p.atoms found ∧
        (p.anchored = true → back = []) ∧ isBoundary prev = true ∧
        isBoundary back.head? = true := by
  unfold starts
  constructor
  · intro h
    rw [Bool.and_eq_true] at h
    rcases h with ⟨hprev, hstrip⟩
    cases hrest : strip p.atoms line with
    | none => simp [hrest] at hstrip
    | some back =>
        rcases strip_eq_some.mp hrest with ⟨found, hline, hfound⟩
        simp only [hrest, Bool.and_eq_true, Bool.or_eq_true, Bool.not_eq_true',
          decide_eq_true_eq] at hstrip
        refine ⟨found, back, hline, hfound, ?_, hprev, hstrip.1⟩
        intro hanchored
        rcases hstrip.2 with hfalse | hnil
        · rw [hanchored] at hfalse
          cases hfalse
        · exact hnil
  · intro h
    rcases h with ⟨found, back, hline, hfound, hanchored, hprev, hback⟩
    have hstrip : strip p.atoms line = some back := strip_eq_some.mpr ⟨found, hline, hfound⟩
    rw [hstrip, hprev]
    simp only [hback, Bool.true_and, Bool.or_eq_true, Bool.not_eq_true', decide_eq_true_eq]
    cases hcase : p.anchored with
    | false => exact .inl rfl
    | true => exact .inr (hanchored hcase)

theorem search_iff :
    search p prev line = true ↔
      ∃ front found back, line = front ++ (found ++ back) ∧
        List.Forall₂ Atom.Matches p.atoms found ∧ (p.anchored = true → back = []) ∧
        isBoundary (front.getLast?.or prev) = true ∧ isBoundary back.head? = true := by
  induction line generalizing prev with
  | nil =>
      rw [search, starts_iff]
      constructor
      · intro h
        rcases h with ⟨found, back, hline, hrest⟩
        exact ⟨[], found, back, hline, hrest⟩
      · intro h
        rcases h with ⟨front, found, back, hline, hrest⟩
        have hfront : front = [] := (List.append_eq_nil_iff.mp hline.symm).1
        rw [hfront] at hline hrest
        exact ⟨found, back, hline, hrest⟩
  | cons c cs ih =>
      rw [search, Bool.or_eq_true, starts_iff, ih]
      constructor
      · intro h
        rcases h with ⟨found, back, hline, hrest⟩ | ⟨front, found, back, hline, hrest⟩
        · exact ⟨[], found, back, hline, hrest⟩
        · refine ⟨c :: front, found, back, by rw [hline]; rfl, ?_⟩
          rw [List.getLast?_cons, Option.some_or]
          rw [Option.or_some] at hrest
          exact hrest
      · intro h
        rcases h with ⟨front, found, back, hline, hrest⟩
        cases front with
        | nil => exact .inl ⟨found, back, hline, hrest⟩
        | cons b front =>
            injection hline with hb hcs
            rw [List.getLast?_cons, Option.some_or, ← hb] at hrest
            refine .inr ⟨front, found, back, hcs, ?_⟩
            rw [Option.or_some]
            exact hrest

theorem search_none : search p none line = true ↔ Occurs p line := by
  rw [search_iff]
  simp only [Option.or_none]
  rfl

theorem grepW_iff {lines : List (List UInt8)} :
    grepW text lines = true ↔ ∃ line ∈ lines, Occurs (parse text) line := by
  unfold grepW
  simp only [List.any_eq_true, search_none]

/-! ## Words -/

def blankOut (c : UInt8) : UInt8 := if isWord c then c else 32

def wordsOf (line : List UInt8) : List (List UInt8) := fields 32 (line.map blankOut)

theorem forall₂_atom_iff {found : List UInt8} (h : 46 ∉ text) :
    List.Forall₂ Atom.Matches (text.map atom) found ↔ found = text := by
  have hatom : ∀ c ∈ text, ∀ b, (atom c).Matches b ↔ c = b := by
    intro c hc b
    have hdot : c ≠ 46 := fun e => h (e ▸ hc)
    rw [atom, if_neg hdot, Atom.Matches]
  rw [List.forall₂_map_left_iff]
  constructor
  · intro hfound
    induction hfound with
    | nil => rfl
    | cons hab _ ih =>
        rw [← (hatom _ (by simp) _).mp hab, ih (by simp_all) fun c hc => hatom c (by simp [hc])]
  · intro h
    subst h
    exact List.forall₂_same.mpr fun c hc => (hatom c hc c).mpr rfl

theorem blankOut_eq_blank {c : UInt8} : blankOut c = 32 ↔ isWord c = false := by
  unfold blankOut
  cases hc : isWord c with
  | false => simp
  | true =>
      simp only [if_true, Bool.true_eq_false, iff_false]
      intro h
      subst h
      exact absurd hc (by decide)

theorem map_blankOut (hword : ∀ c ∈ text, isWord c = true) : text.map blankOut = text := by
  conv_rhs => rw [← List.map_id text]
  apply List.map_congr_left
  intro c hc
  exact if_pos (hword c hc)

theorem wordsOf_append {c : UInt8} (hc : isWord c = false) (front back : List UInt8) :
    wordsOf (front ++ c :: back) = wordsOf front ++ wordsOf back := by
  unfold wordsOf
  rw [List.map_append, List.map_cons, blankOut_eq_blank.mpr hc, fields_append_delimiter]

theorem isBoundary_iff {c : Option UInt8} :
    isBoundary c = true ↔ ∀ b, c.map blankOut = some b → b = 32 := by
  cases c with
  | none => simp [isBoundary]
  | some b => simp [isBoundary, blankOut_eq_blank]

/-- A word occurs where it is one of the line's words. -/
theorem occurs_word_iff (hword : ∀ c ∈ text, isWord c = true) :
    Occurs (parse text) line ↔ text ∈ wordsOf line := by
  have hdot : 46 ∉ text := fun h => absurd (hword 46 h) (by decide)
  have hblank : 32 ∉ text := fun h => absurd (hword 32 h) (by decide)
  have hparse : parse text = ⟨text.map atom, false⟩ := by
    apply if_neg
    intro hlast
    exact absurd (hword 36 (List.mem_of_getLast? hlast)) (by decide)
  unfold wordsOf Occurs
  rw [mem_fields_iff hblank, hparse]
  simp only [forall₂_atom_iff hdot, isBoundary_iff, ← List.getLast?_map, ← List.head?_map]
  constructor
  · intro h
    rcases h with ⟨front, found, back, rfl, rfl, -, hfront, hback⟩
    refine ⟨front.map blankOut, back.map blankOut, ?_, hfront, hback⟩
    rw [List.map_append, List.map_append, map_blankOut hword]
  · intro h
    rcases h with ⟨front', back', hline, hfront, hback⟩
    rcases List.map_eq_append_iff.mp hline with ⟨front, rest, rfl, rfl, hrest⟩
    rcases List.map_eq_append_iff.mp hrest with ⟨found, back, rfl, hfound, rfl⟩
    have hfoundWord : ∀ c ∈ found, isWord c = true := by
      intro c hc
      by_contra hnot
      have hc32 : blankOut c = 32 := blankOut_eq_blank.mpr (Bool.eq_false_of_not_eq_true hnot)
      exact hblank (hfound ▸ hc32 ▸ List.mem_map_of_mem hc)
    rw [map_blankOut hfoundWord] at hfound
    exact ⟨front, found, back, rfl, hfound, by simp, hfront, hback⟩

end KernelTrg.Grep
