import KernelTrg.Lib.Bytes
import Mathlib.Data.List.DropRight

/-!
# Text as a shell script handles it

Lines and the fields of a line, the columns of a table, the words of an unquoted expansion with
pathname expansion, and numbers in an arithmetic expansion. Texts are bytes.
-/

namespace KernelTrg.Shell

open Bytes

/-! ## Fields -/

/-- The pieces between the occurrences of a delimiter. -/
def fields (d : UInt8) : List UInt8 → List (List UInt8)
  | [] => [[]]
  | c :: cs =>
      if c = d then [] :: fields d cs
      else
        match fields d cs with
        | [] => [[c]]
        | f :: fs => (c :: f) :: fs

/-- `cut -d d -f n` of a line: a line without the delimiter is passed on whole. -/
def cut (d : UInt8) (n : Nat) (line : List UInt8) : List UInt8 :=
  if d ∈ line then (fields d line).getD (n - 1) [] else line

/-- `sed 's/^ *//'` of a line. -/
def ltrim (line : List UInt8) : List UInt8 := line.dropWhile (· = 32)

def trim (text : List UInt8) : List UInt8 := (ltrim (ltrim text).reverse).reverse

section Fields

variable {d c : UInt8} {xs ys rest : List UInt8}

theorem fields_of_notMem (h : d ∉ xs) : fields d xs = [xs] := by
  induction xs with
  | nil => rfl
  | cons c xs ih =>
      have hc : c ≠ d := fun e => h (by simp [e])
      have hxs : d ∉ xs := fun hmem => h (by simp [hmem])
      unfold fields
      rw [if_neg hc, ih hxs]

theorem fields_ne_nil (xs : List UInt8) : fields d xs ≠ [] := by
  cases xs with
  | nil => exact List.cons_ne_nil _ _
  | cons c xs =>
      rw [fields]
      split
      · exact List.cons_ne_nil _ _
      · cases fields d xs <;> exact List.cons_ne_nil _ _

theorem fields_append (h : d ∉ xs) (rest : List UInt8) :
    fields d (xs ++ d :: rest) = xs :: fields d rest := by
  induction xs with
  | nil => rw [List.nil_append, fields, if_pos rfl]
  | cons c xs ih =>
      have hc : c ≠ d := fun e => h (by simp [e])
      have hxs : d ∉ xs := fun hmem => h (by simp [hmem])
      rw [List.cons_append, fields, if_neg hc, ih hxs]

theorem mem_of_mem_fields {field : List UInt8} (hfield : field ∈ fields d xs) (hc : c ∈ field) :
    c ∈ xs := by
  induction xs generalizing field with
  | nil =>
      rw [fields, List.mem_singleton] at hfield
      rw [hfield] at hc
      exact hc
  | cons b xs ih =>
      rw [fields] at hfield
      split at hfield
      · rcases List.mem_cons.mp hfield with rfl | hrest
        · cases hc
        · exact List.mem_cons_of_mem b (ih hrest hc)
      · cases hfields : fields d xs with
        | nil =>
            rw [hfields] at hfield
            rw [List.mem_singleton.mp hfield, List.mem_singleton] at hc
            rw [hc]
            exact List.mem_cons_self
        | cons f fs =>
            rw [hfields] at hfield ih
            rcases List.mem_cons.mp hfield with rfl | hrest
            · rcases List.mem_cons.mp hc with rfl | hcf
              · exact List.mem_cons_self
              · exact List.mem_cons_of_mem b (ih List.mem_cons_self hcf)
            · exact List.mem_cons_of_mem b (ih (List.mem_cons_of_mem f hrest) hc)

theorem fields_append_delimiter (d : UInt8) (front back : List UInt8) :
    fields d (front ++ d :: back) = fields d front ++ fields d back := by
  induction front with
  | nil => simp [fields]
  | cons c front ih =>
      rw [List.cons_append, fields, fields, ih]
      by_cases hc : c = d
      · rw [if_pos hc, if_pos hc]
        rfl
      · rw [if_neg hc, if_neg hc]
        cases hfront : fields d front with
        | nil => exact absurd hfront (fields_ne_nil front)
        | cons f fs => rfl

/-- Where the fields are: the first at the start, each other one behind a delimiter. -/
theorem fields_places (d : UInt8) (xs : List UInt8) :
    ∃ first others, fields d xs = first :: others ∧
      (∃ back, xs = first ++ back ∧ ∀ c, back.head? = some c → c = d) ∧
      ∀ f ∈ others, ∃ front back, xs = front ++ d :: (f ++ back) ∧
        ∀ c, back.head? = some c → c = d := by
  induction xs with
  | nil => exact ⟨[], [], rfl, ⟨[], rfl, by simp⟩, by simp⟩
  | cons c xs ih =>
      rcases ih with ⟨first, others, hfields, ⟨back, hxs, hback⟩, hothers⟩
      rw [fields, hfields]
      by_cases hc : c = d
      · refine ⟨[], first :: others, if_pos hc, ⟨c :: xs, rfl, by simp [hc]⟩, ?_⟩
        intro f hf
        rcases List.mem_cons.mp hf with rfl | hf
        · exact ⟨[], back, by rw [hc, hxs]; rfl, hback⟩
        · rcases hothers f hf with ⟨front, back', hplace, hback'⟩
          exact ⟨c :: front, back', by rw [hplace]; rfl, hback'⟩
      · refine ⟨c :: first, others, if_neg hc, ⟨back, by rw [hxs]; rfl, hback⟩, ?_⟩
        intro f hf
        rcases hothers f hf with ⟨front, back', hplace, hback'⟩
        exact ⟨c :: front, back', by rw [hplace]; rfl, hback'⟩

/-- A text is a field where delimiters or the ends of the line stand around it. -/
theorem mem_fields_iff {f : List UInt8} (hf : d ∉ f) :
    f ∈ fields d xs ↔ ∃ front back, xs = front ++ (f ++ back) ∧
      (∀ c, front.getLast? = some c → c = d) ∧ ∀ c, back.head? = some c → c = d := by
  constructor
  · intro hmem
    rcases fields_places d xs with ⟨first, others, hfields, ⟨back, hxs, hback⟩, hothers⟩
    rw [hfields] at hmem
    rcases List.mem_cons.mp hmem with rfl | hmem
    · exact ⟨[], back, hxs, by simp, hback⟩
    · rcases hothers f hmem with ⟨front, back', hplace, hback'⟩
      refine ⟨front ++ [d], back', by rw [hplace, List.append_assoc]; rfl, ?_, hback'⟩
      intro c hc
      rw [List.getLast?_concat, Option.some.injEq] at hc
      exact hc.symm
  · intro h
    rcases h with ⟨front, back, rfl, hfront, hback⟩
    have hfirst : f ∈ fields d (f ++ back) := by
      cases back with
      | nil =>
          rw [List.append_nil, fields_of_notMem hf]
          exact List.mem_cons_self
      | cons c back =>
          rw [hback c rfl, fields_append hf]
          exact List.mem_cons_self
    rcases List.eq_nil_or_concat' front with rfl | ⟨front, c, rfl⟩
    · exact hfirst
    · have hc : c = d := hfront c (List.getLast?_concat ..)
      rw [hc, List.append_assoc, List.singleton_append, fields_append_delimiter, List.mem_append]
      exact .inr hfirst

theorem fields_getD_zero (d : UInt8) (xs : List UInt8) :
    (fields d xs).getD 0 [] = xs.takeWhile (· ≠ d) := by
  induction xs with
  | nil => rfl
  | cons c xs ih =>
      rw [fields]
      by_cases hc : c = d
      · simp [hc]
      · rw [if_neg hc, List.takeWhile_cons_of_pos (by simpa using hc), ← ih]
        cases fields d xs <;> rfl

theorem cut_first (h : d ∉ xs) (rest : List UInt8) : cut d 1 (xs ++ d :: rest) = xs := by
  unfold cut
  rw [if_pos (by simp), fields_append h]
  rfl

theorem cut_second (h : d ∉ xs) (rest : List UInt8) :
    cut d 2 (xs ++ d :: rest) = rest.takeWhile (· ≠ d) := by
  unfold cut
  rw [if_pos (by simp), fields_append h, ← fields_getD_zero]
  rfl

end Fields

/-! ## Blanks -/

section Blanks

variable {text : List UInt8} {k : Nat}

theorem ltrim_replicate (k : Nat) (text : List UInt8) :
    ltrim (List.replicate k 32 ++ text) = ltrim text := by
  rw [ltrim, List.dropWhile_append_of_pos (by simp)]
  rfl

theorem ltrim_of_head {c : UInt8} (h : c ≠ 32) (text : List UInt8) :
    ltrim (c :: text) = c :: text :=
  List.dropWhile_cons_of_neg (by simpa using h)

theorem ltrim_decimal (n width : Nat) : ltrim ((decimal n).leftpad width 32) = decimal n := by
  rw [List.leftpad, ltrim_replicate]
  cases hdigits : decimal n with
  | nil => rfl
  | cons c cs =>
      have hc : 48 ≤ c := (mem_decimal (n := n) (by simp [hdigits])).1
      exact ltrim_of_head (fun e => absurd (e ▸ hc) (by decide)) cs

theorem trim_cons_blank (text : List UInt8) : trim (32 :: text) = trim text := by
  have hcons := ltrim_replicate 1 text
  rw [trim, show 32 :: text = List.replicate 1 32 ++ text from rfl, hcons]
  rfl

theorem mem_trim {c : UInt8} (h : c ≠ 32) : c ∈ trim text ↔ c ∈ text := by
  have hltrim : ∀ s : List UInt8, c ∈ ltrim s ↔ c ∈ s := by
    intro s
    induction s with
    | nil => rfl
    | cons b s ih =>
        by_cases hb : b = 32
        · rw [hb, show 32 :: s = List.replicate 1 32 ++ s from rfl, ltrim_replicate, ih]
          simp [h]
        · rw [ltrim_of_head hb]
  unfold trim
  rw [List.mem_reverse, hltrim, List.mem_reverse, hltrim]

end Blanks

/-! ## Lines -/

/-- The lines of a file; a newline at its end does not start another. -/
def fileLines (text : List UInt8) : List (List UInt8) :=
  let pieces := fields 10 text
  if pieces.getLast? = some [] then pieces.dropLast else pieces

/-- `$(..)` of a command that prints `text` -/
def substituted (text : List UInt8) : List UInt8 := text.rdropWhile (· = 10)

/-- `head -n1` -/
def firstLine (text : List UInt8) : List UInt8 := (fileLines text).headD []

/-- `tail -n1` -/
def lastLine (text : List UInt8) : List UInt8 := (fileLines text).getLastD []

def unlines (lines : List (List UInt8)) : List UInt8 := lines.flatMap fun l => l ++ [10]

/-- `IFS` being a newline, the words of an expansion. -/
def words (text : List UInt8) : List (List UInt8) := (fields 10 text).filter (· ≠ [])

section Lines

variable {lines : List (List UInt8)}

theorem unlines_append (lines : List (List UInt8)) (l : List UInt8) :
    unlines (lines ++ [l]) = unlines lines ++ (l ++ [10]) := by
  unfold unlines
  rw [List.flatMap_append, List.flatMap_singleton]

theorem fields_unlines (h : ∀ l ∈ lines, 10 ∉ l) : fields 10 (unlines lines) = lines ++ [[]] := by
  induction lines with
  | nil => rfl
  | cons l lines ih =>
      have hrest := ih fun l' hl' => h l' (by simp [hl'])
      unfold unlines
      rw [List.flatMap_cons, List.append_assoc]
      change fields 10 (l ++ 10 :: unlines lines) = _
      rw [fields_append (h l (by simp)), hrest]
      rfl

theorem fileLines_unlines (h : ∀ l ∈ lines, 10 ∉ l) : fileLines (unlines lines) = lines := by
  unfold fileLines
  rw [fields_unlines h]
  simp

theorem firstLine_append {line : List UInt8} (h : 10 ∉ line) (rest : List UInt8) :
    firstLine (line ++ 10 :: rest) = line := by
  unfold firstLine fileLines
  rw [fields_append h]
  cases hrest : fields 10 rest with
  | nil => cases line <;> rfl
  | cons piece pieces =>
      dsimp only
      split <;> rfl

theorem words_unlines (h : ∀ l ∈ lines, 10 ∉ l ∧ l ≠ []) : words (unlines lines) = lines := by
  unfold words
  rw [fields_unlines fun l hl => (h l hl).1, List.filter_append]
  have hall : lines.filter (· ≠ []) = lines :=
    List.filter_eq_self.mpr fun l hl => by simpa using (h l hl).2
  rw [hall]
  simp

theorem words_of_notMem {word : List UInt8} (h : 10 ∉ word) (hne : word ≠ []) :
    words word = [word] := by
  unfold words
  rw [fields_of_notMem h]
  simp [hne]

end Lines

/-! ## Columns -/

/-- The fields of a line for awk: what stands between runs of blanks and tabs. -/
def awkFields (line : List UInt8) : List (List UInt8) :=
  (fields 32 (line.map fun c => if c = 9 then 32 else c)).filter (· ≠ [])

/-- `awk '{print $n}'` of a line -/
def awk (n : Nat) (line : List UInt8) : List UInt8 := (awkFields line).getD (n - 1) []

/-- The words of an expansion with the `IFS` that a shell starts with. -/
def ifsWords (text : List UInt8) : List (List UInt8) := (fields 10 text).flatMap awkFields

structure Column where
  text : List UInt8
  ne_nil : text ≠ []
  blank_notMem : 32 ∉ text
  tab_notMem : 9 ∉ text
  newline_notMem : 10 ∉ text

def Column.ofNat (n : Nat) : Column where
  text := decimal n
  ne_nil := by
    intro h
    have hlength := length_decimal n
    rw [h, decimalWidth] at hlength
    simp at hlength
  blank_notMem := fun h => absurd (mem_decimal h).1 (by decide)
  tab_notMem := fun h => absurd (mem_decimal h).1 (by decide)
  newline_notMem := fun h => absurd (mem_decimal h).1 (by decide)

/-- A line of a table: columns with so many blanks in front of each of them and one behind, then
text that may hold blanks itself. -/
def tableRow (columns : List (Nat × Column)) (last : List UInt8) : List UInt8 :=
  columns.foldr (fun c rest => List.replicate c.1 32 ++ (c.2.text ++ 32 :: rest)) last

section Columns

variable {columns : List (Nat × Column)} {last : List UInt8}

theorem awkFields_blanks (k : Nat) (line : List UInt8) :
    awkFields (List.replicate k 32 ++ line) = awkFields line := by
  induction k with
  | zero => rfl
  | succ k ih =>
      rw [← ih, List.replicate_succ, List.cons_append]
      unfold awkFields
      rw [List.map_cons, if_neg (by decide), fields, if_pos rfl]
      rfl

theorem Column.map_text (c : Column) :
    c.text.map (fun b => if b = 9 then 32 else b) = c.text := by
  conv_rhs => rw [← List.map_id c.text]
  apply List.map_congr_left
  intro b hb
  have hb9 : b ≠ 9 := fun e => c.tab_notMem (e ▸ hb)
  exact if_neg hb9

theorem awkFields_column (c : Column) (rest : List UInt8) :
    awkFields (c.text ++ 32 :: rest) = c.text :: awkFields rest := by
  unfold awkFields
  rw [List.map_append, c.map_text, List.map_cons, if_neg (by decide), fields_append c.blank_notMem,
    List.filter_cons_of_pos (by simpa using c.ne_nil)]

theorem awkFields_text (c : Column) : awkFields c.text = [c.text] := by
  unfold awkFields
  rw [c.map_text, fields_of_notMem c.blank_notMem,
    List.filter_cons_of_pos (by simpa using c.ne_nil)]
  rfl

/-- The words are the lines, where each line is one. -/
theorem ifsWords_columns (columns : List Column) :
    ifsWords (unlines (columns.map Column.text)) = columns.map Column.text := by
  have hnewline : ∀ l ∈ columns.map Column.text, 10 ∉ l := by
    intro l hl
    rcases List.mem_map.mp hl with ⟨c, -, rfl⟩
    exact c.newline_notMem
  unfold ifsWords
  rw [fields_unlines hnewline, List.flatMap_append, List.flatMap_map]
  simp only [awkFields_text]
  rw [← List.map_eq_flatMap]
  exact List.append_nil _

theorem head?_awk {c : UInt8} (hblank : c ≠ 32) (htab : c ≠ 9) (rest : List UInt8) :
    (awk 1 (c :: rest)).head? = some c := by
  unfold awk awkFields
  rw [List.map_cons, if_neg htab, fields, if_neg hblank]
  cases fields 32 (rest.map fun b => if b = 9 then 32 else b) <;> rfl

theorem mem_of_mem_awk {n : Nat} {line : List UInt8} {c : UInt8} (h : c ∈ awk n line)
    (hblank : c ≠ 32) : c ∈ line := by
  have hfield : awk n line ∈ awkFields line := by
    unfold awk at h ⊢
    rw [List.getD_eq_getElem?_getD] at h ⊢
    cases hget : (awkFields line)[n - 1]? with
    | none => simp [hget] at h
    | some field => exact List.mem_of_getElem? hget
  unfold awkFields at hfield
  have hmem := mem_of_mem_fields (List.mem_filter.mp hfield).1 h
  rcases List.mem_map.mp hmem with ⟨b, hb, rfl⟩
  split at hblank
  · exact absurd rfl hblank
  · rw [if_neg ‹_›]
    exact hb

/-- awk finds the columns of a table's line. -/
theorem awkFields_tableRow (columns : List (Nat × Column)) (last : List UInt8) :
    awkFields (tableRow columns last) = columns.map (·.2.text) ++ awkFields last := by
  induction columns with
  | nil => rfl
  | cons c columns ih =>
      change awkFields (List.replicate c.1 32 ++ (c.2.text ++ 32 :: tableRow columns last)) = _
      rw [awkFields_blanks, awkFields_column, ih]
      rfl

theorem mem_tableRow {b : UInt8} (h : b ∈ tableRow columns last) :
    b = 32 ∨ (∃ c ∈ columns, b ∈ c.2.text) ∨ b ∈ last := by
  induction columns with
  | nil => exact .inr (.inr h)
  | cons c columns ih =>
      change b ∈ List.replicate c.1 32 ++ (c.2.text ++ 32 :: tableRow columns last) at h
      rcases List.mem_append.mp h with h | h
      · exact .inl (List.mem_replicate.mp h).2
      · rcases List.mem_append.mp h with h | h
        · exact .inr (.inl ⟨c, List.mem_cons_self, h⟩)
        · rcases List.mem_cons.mp h with h | h
          · exact .inl h
          · rcases ih h with h | ⟨c', hc', h⟩ | h
            · exact .inl h
            · exact .inr (.inl ⟨c', List.mem_cons_of_mem c hc', h⟩)
            · exact .inr (.inr h)

theorem newline_notMem_tableRow (h : 10 ∉ last) : 10 ∉ tableRow columns last := by
  induction columns with
  | nil => exact h
  | cons c columns ih =>
      change 10 ∉ List.replicate c.1 32 ++ (c.2.text ++ 32 :: tableRow columns last)
      simp [c.2.newline_notMem, ih]

end Columns

/-! ## Pathname expansion -/

/-- A piece of a pattern; a bracket expression keeps its text. -/
inductive Glob where
  | lit (c : UInt8)
  | one
  | any
  | bracket (text : List UInt8)
deriving DecidableEq, Repr

/-- The text of a bracket expression and what follows it: a `]` at its start, also behind
`!` or `^`, does not close it. -/
def closeBracket (cs : List UInt8) : Option (List UInt8 × List UInt8) :=
  let negated := if cs.head? = some 33 ∨ cs.head? = some 94 then 1 else 0
  let skip := if (cs.drop negated).head? = some 93 then negated + 1 else negated
  let body := (cs.drop skip).takeWhile (· ≠ 93)
  if 93 ∈ cs.drop skip then some (cs.take skip ++ body, (cs.drop skip).drop (body.length + 1))
  else none

/-- A word read as a pattern, in as many steps as it has bytes. -/
def parseGlob : Nat → List UInt8 → List Glob
  | 0, _ => []
  | _ + 1, [] => []
  | n + 1, 42 :: cs => .any :: parseGlob n cs
  | n + 1, 63 :: cs => .one :: parseGlob n cs
  | n + 1, 92 :: c :: cs => .lit c :: parseGlob n cs
  | n + 1, 91 :: cs =>
      match closeBracket cs with
      | some (text, rest) => .bracket text :: parseGlob n rest
      | none => .lit 91 :: parseGlob n cs
  | n + 1, c :: cs => .lit c :: parseGlob n cs

/-- A file name matches; `inBracket` says what a bracket expression stands for in the
locale. -/
def matchGlob (inBracket : List UInt8 → UInt8 → Bool) : List Glob → List UInt8 → Bool
  | [], file => file.isEmpty
  | .lit c :: p, b :: file => b = c && matchGlob inBracket p file
  | .one :: p, _ :: file => matchGlob inBracket p file
  | .bracket text :: p, b :: file => inBracket text b && matchGlob inBracket p file
  | .any :: p, file => file.tails.any (matchGlob inBracket p)
  | _ :: _, [] => false

/-- A word in a directory with the given files: those it matches, or else itself. -/
def expand (inBracket : List UInt8 → UInt8 → Bool) (files : List (List UInt8))
    (word : List UInt8) : List (List UInt8) :=
  let hits := files.filter (matchGlob inBracket (parseGlob word.length word))
  if hits = [] then [word] else hits

def Plain (c : UInt8) : Prop := c ≠ 42 ∧ c ≠ 63 ∧ c ≠ 91 ∧ c ≠ 92

theorem parseGlob_plain {c : UInt8} (h : Plain c) (n : Nat) (cs : List UInt8) :
    parseGlob (n + 1) (c :: cs) = .lit c :: parseGlob n cs := by
  obtain ⟨h42, h63, h91, h92⟩ := h
  rw [parseGlob]
  · exact fun e => h42 e
  · exact fun e => h63 e
  · exact fun _ _ e => absurd e h92
  · exact fun e => h91 e

/-- A word with a plain byte in front matches only files that start with it. -/
theorem expand_of_head (inBracket : List UInt8 → UInt8 → Bool) {files : List (List UInt8)}
    {a : UInt8} {cs : List UInt8} (ha : Plain a) (hfiles : ∀ file ∈ files, file.head? ≠ some a) :
    expand inBracket files (a :: cs) = [a :: cs] := by
  have hnone : files.filter (matchGlob inBracket (parseGlob (a :: cs).length (a :: cs))) = [] := by
    rw [List.filter_eq_nil_iff]
    intro file hfile hmatch
    rw [List.length_cons, parseGlob_plain ha] at hmatch
    cases file with
    | nil => simp [matchGlob] at hmatch
    | cons x rest =>
        simp only [matchGlob, Bool.and_eq_true, decide_eq_true_eq] at hmatch
        exact hfiles _ hfile (by rw [List.head?_cons, hmatch.1])
  unfold expand
  simp only [hnone, if_true]

theorem expand_eq_self (inBracket : List UInt8 → UInt8 → Bool) {files : List (List UInt8)}
    {a b : UInt8} {cs : List UInt8} (ha : Plain a) (hb : Plain b)
    (hfiles : ∀ file ∈ files, ¬[a, b] <+: file) :
    expand inBracket files (a :: b :: cs) = [a :: b :: cs] := by
  have hnone : files.filter (matchGlob inBracket (parseGlob (a :: b :: cs).length (a :: b :: cs))) =
      [] := by
    rw [List.filter_eq_nil_iff]
    intro file hfile hmatch
    rw [List.length_cons, List.length_cons, parseGlob_plain ha, parseGlob_plain hb] at hmatch
    match file, hmatch with
    | x :: y :: rest, hmatch =>
        simp only [matchGlob, Bool.and_eq_true, decide_eq_true_eq] at hmatch
        obtain ⟨rfl, rfl, -⟩ := hmatch
        exact hfiles _ hfile ⟨rest, rfl⟩
    | [_], hmatch => simp [matchGlob] at hmatch
    | [], hmatch => simp [matchGlob] at hmatch
  unfold expand
  rw [hnone]
  rfl

/-! ## The builtin `printf` -/

/-- A piece of a format: text, `%<width>d` or `%<width>s`. -/
inductive Piece where
  | text (text : List UInt8)
  | number (width : Nat)
  | string (width : Nat)
deriving DecidableEq, Repr

/-- A decimal number, with or without blanks in front (the other notations that `printf` takes
are left out). -/
def isNumber (word : List UInt8) : Bool :=
  ltrim word ≠ [] && (ltrim word).all fun c => 48 ≤ c && c ≤ 57

/-- The format once: what is printed, the status, and the arguments that are left. An argument
that is missing is 0 or empty, one that is not a number is printed as 0 and fails. -/
def printfOnce : List Piece → List (List UInt8) → List UInt8 × Nat × List (List UInt8)
  | [], args => ([], 0, args)
  | .text text :: format, args =>
      let rest := printfOnce format args
      (text ++ rest.1, rest.2)
  | .number width :: format, args =>
      let rest := printfOnce format args.tail
      match args with
      | [] => ((decimal 0).leftpad width 32 ++ rest.1, rest.2)
      | word :: _ =>
          if isNumber word then
            ((decimal (decimalValue (ltrim word))).leftpad width 32 ++ rest.1, rest.2)
          else ((decimal 0).leftpad width 32 ++ rest.1, 1, rest.2.2)
  | .string width :: format, args =>
      let rest := printfOnce format args.tail
      ((args.headD []).leftpad width 32 ++ rest.1, rest.2)

/-- The format is used again as long as there are arguments, at most so many times. -/
def printfAgain (format : List Piece) : Nat → List (List UInt8) → List UInt8 × Nat
  | 0, _ => ([], 0)
  | n + 1, args =>
      let once := printfOnce format args
      if once.2.2 = [] then (once.1, once.2.1)
      else
        let again := printfAgain format n once.2.2
        (once.1 ++ again.1, max once.2.1 again.2)

def printf (format : List Piece) (args : List (List UInt8)) : List UInt8 × Nat :=
  printfAgain format (args.length + 1) args

theorem isNumber_padded (blanks n : Nat) :
    isNumber (List.replicate blanks 32 ++ decimal n) = true ∧
      decimalValue (ltrim (List.replicate blanks 32 ++ decimal n)) = n := by
  have htrim : ltrim (List.replicate blanks 32 ++ decimal n) = decimal n := by
    rw [ltrim_replicate]
    simpa using ltrim_decimal n 0
  constructor
  · have hdigits : ∀ c ∈ decimal n, 48 ≤ c ∧ c ≤ 57 := fun c hc => mem_decimal hc
    unfold isNumber
    simp only [htrim, Bool.and_eq_true, decide_eq_true_eq, List.all_eq_true]
    exact ⟨(Column.ofNat n).ne_nil, hdigits⟩
  · rw [htrim]
    exact decimalValue_decimal n

theorem isNumber_decimal (n : Nat) :
    isNumber (decimal n) = true ∧ decimalValue (ltrim (decimal n)) = n :=
  isNumber_padded 0 n

/-! ## Arithmetic -/

/-- The bytes that a number may be written with: digits, letters, `@`, `_` and `#`. -/
def isNumeral (c : UInt8) : Bool :=
  (48 ≤ c && c ≤ 57) || (97 ≤ c && c ≤ 122) || (64 ≤ c && c ≤ 90) || c = 95 || c = 35

/-- `$((16#text))`: a number that blanks may follow, modulo 2^64. Everything else is an error
(operators, of which bash would take some, are left out). -/
def arith16 (text : List UInt8) : Option Int64 :=
  let digits := text.takeWhile isNumeral
  if digits = [] ∨ ∃ c ∈ text.dropWhile isNumeral, c ≠ 32 then none
  else (hexValue digits).map Int64.ofNat

theorem arith16_hexadecimal (n width blanks : Nat) :
    arith16 ((hexadecimal n).leftpad width 48 ++ List.replicate blanks 32) =
      some (Int64.ofNat n) := by
  have hnumeral : ∀ c ∈ (hexadecimal n).leftpad width 48, isNumeral c = true := by
    intro c hc
    rcases mem_padded_hexadecimal hc with ⟨hlo, hhi⟩ | ⟨hlo, hhi⟩
    · simp [isNumeral, hlo, hhi]
    · have hz : c ≤ 122 := UInt8.le_trans hhi (by decide)
      simp [isNumeral, hlo, hz]
  have htake : ((hexadecimal n).leftpad width 48 ++ List.replicate blanks 32).takeWhile isNumeral =
      (hexadecimal n).leftpad width 48 := by
    rw [List.takeWhile_append_of_pos hnumeral, List.takeWhile_replicate]
    simp [isNumeral]
  have hdrop : ((hexadecimal n).leftpad width 48 ++ List.replicate blanks 32).dropWhile isNumeral =
      List.replicate blanks 32 := by
    rw [List.dropWhile_append_of_pos hnumeral, List.dropWhile_replicate]
    simp [isNumeral]
  have hgood : ¬((hexadecimal n).leftpad width 48 = [] ∨
      ∃ c ∈ List.replicate blanks (32 : UInt8), c ≠ 32) := by
    simp [List.mem_replicate, hexadecimal_ne_nil]
  simp only [arith16, htake, hdrop, if_neg hgood, hexValue_leftpad, Option.map_some]

/-- A variable's value in an arithmetic expansion: a number without zeros in front, modulo
2^64 (the other notations that bash takes are left out). -/
def arith10 (text : List UInt8) : Option Int64 :=
  if decimal (decimalValue text) = text then some (.ofNat (decimalValue text)) else none

theorem arith10_decimal (n : Nat) : arith10 (decimal n) = some (.ofNat n) := by
  unfold arith10
  rw [decimalValue_decimal, if_pos rfl]

end KernelTrg.Shell
