import KernelTrg.Lib.Grep
import KernelTrg.Lib.Shell

/-!
# Checking a module against the stable ABI

`check_kabi.sh` asks for each undefined symbol of a module whether `grep -w` finds it anywhere in
the file of the stable ABI, which has other text beside the symbols.
-/

namespace KernelTrg.CheckKabi

open Bytes Shell Grep

/-! ## The files -/

def isPrintable (c : UInt8) : Bool := 32 ≤ c && c ≤ 126

/-- Printable, no blank, and none of `*?[\^`, which open an expression or a pathname pattern. -/
def isOrdinary (c : UInt8) : Bool := isPrintable c && c ∉ [32, 42, 63, 91, 92, 94]

/-- A symbol, with `.` and `$` among the characters of its name, which assemblers allow. -/
structure Symbol where
  text : List UInt8
  ne_nil : text ≠ []
  ordinary : text.all isOrdinary = true
  head_ne_dash : text.head? ≠ some 45

structure Field where
  text : List UInt8
  printable : text.all isPrintable = true

structure Row where
  crc : Nat
  symbol : Symbol
  path : Field
  exportType : Field

def Row.line (r : Row) : List UInt8 :=
  ascii "0x" ++ (hexadecimal r.crc).leftpad 8 48 ++ 9 :: (r.symbol.text ++ 9 :: (r.path.text ++
    9 :: r.exportType.text))

/-- The two formats: a header in brackets and indented symbols, or lines of four columns. -/
inductive KabiFile where
  | stablelist (name : Field) (symbols : List Symbol)
  | moduleKabi (rows : List Row)

def KabiFile.lines : KabiFile → List (List UInt8)
  | .stablelist name symbols => (91 :: name.text ++ [93]) :: symbols.map fun s => 9 :: s.text
  | .moduleKabi rows => rows.map Row.line

def KabiFile.entries : KabiFile → List (List UInt8)
  | .stablelist _ symbols => symbols.map Symbol.text
  | .moduleKabi rows => rows.map fun r => r.symbol.text

/-! ## The script -/

/-- An undefined symbol of the module, with the letter that `nm` prints for it. -/
structure Undefined where
  kind : Column
  symbol : Symbol

/-- `nm -u` -/
def nmU (undefined : List Undefined) : List UInt8 :=
  unlines (undefined.map fun u => tableRow [(17, u.kind)] u.symbol.text)

def okLine (sym : List UInt8) : List UInt8 := ascii "[OK] " ++ sym ++ ascii " is in stable KABI"

def warnLine (sym : List UInt8) : List UInt8 :=
  ascii "[WARN] " ++ sym ++ ascii " is NOT in stable KABI"

/-- The lines that the script prints; `verbose` is whether the environment sets `VERBOSE` to 1
(the script itself sets `VEROBOSE`). -/
def checkKabi (verbose : Bool) (kabiRef : List UInt8) (undefined : List Undefined) :
    List (List UInt8) :=
  (ifsWords (unlines ((fileLines (nmU undefined)).map (awk 2)))).flatMap fun sym =>
    if grepW sym (fileLines kabiRef) then if verbose then [okLine sym] else []
    else [warnLine sym]

/-- Warned about are exactly the symbols that are no entries. -/
def VerdictsRight (verbose : Bool) (file : KabiFile) (undefined : List Undefined) : Prop :=
  ∀ u ∈ undefined, warnLine u.symbol.text ∈ checkKabi verbose (unlines file.lines) undefined ↔
    u.symbol.text ∉ file.entries

/-- The symbol, read as an expression, occurs as a word somewhere in the file. -/
def KabiFile.Shows (file : KabiFile) (sym : List UInt8) : Prop :=
  ∃ line ∈ file.lines, Occurs (parse sym) line

variable {file : KabiFile} {s : Symbol} {r : Row} {verbose : Bool} {undefined : List Undefined}
  {sym other : List UInt8}

/-! ## The symbols of the module -/

theorem Symbol.notMem (s : Symbol) {c : UInt8} (h : isOrdinary c = false) : c ∉ s.text := by
  intro hc
  rw [List.all_eq_true.mp s.ordinary c hc] at h
  cases h

theorem Field.notMem (f : Field) {c : UInt8} (h : isPrintable c = false) : c ∉ f.text := by
  intro hc
  rw [List.all_eq_true.mp f.printable c hc] at h
  cases h

def Symbol.column (s : Symbol) : Column where
  text := s.text
  ne_nil := s.ne_nil
  blank_notMem := s.notMem (by decide)
  tab_notMem := s.notMem (by decide)
  newline_notMem := s.notMem (by decide)

theorem words_nmU (undefined : List Undefined) :
    ifsWords (unlines ((fileLines (nmU undefined)).map (awk 2))) =
      undefined.map fun u => u.symbol.text := by
  have hnewline : ∀ line ∈ undefined.map fun u => tableRow [(17, u.kind)] u.symbol.text,
      10 ∉ line := by
    intro line hline
    rcases List.mem_map.mp hline with ⟨u, -, rfl⟩
    exact newline_notMem_tableRow u.symbol.column.newline_notMem
  have hawk : (awk 2 ∘ fun u : Undefined => tableRow [(17, u.kind)] u.symbol.text) =
      Column.text ∘ fun u => u.symbol.column := by
    funext u
    change awk 2 (tableRow [(17, u.kind)] u.symbol.column.text) = u.symbol.column.text
    unfold awk
    rw [awkFields_tableRow, awkFields_text]
    rfl
  unfold nmU
  rw [fileLines_unlines hnewline, List.map_map, hawk, ← List.map_map, ifsWords_columns,
    List.map_map]
  rfl

/-! ## The search in the file -/

theorem Row.newline_notMem (r : Row) : 10 ∉ r.line := by
  have hcrc : 10 ∉ (hexadecimal r.crc).leftpad 8 48 := by
    intro h
    rcases mem_padded_hexadecimal h with ⟨hlow, -⟩ | ⟨hlow, -⟩ <;> exact absurd hlow (by decide)
  have hmark : 10 ∉ ascii "0x" := by decide
  have hsymbol : 10 ∉ r.symbol.text := r.symbol.notMem (by decide)
  have hpath : 10 ∉ r.path.text := r.path.notMem (by decide)
  have hexport : 10 ∉ r.exportType.text := r.exportType.notMem (by decide)
  unfold Row.line
  simp only [List.mem_append, List.mem_cons, not_or]
  exact ⟨⟨hmark, hcrc⟩, by decide, hsymbol, by decide, hpath, by decide, hexport⟩

theorem KabiFile.newline_notMem (file : KabiFile) : ∀ line ∈ file.lines, 10 ∉ line := by
  intro line hline
  cases file with
  | stablelist name symbols =>
      rcases List.mem_cons.mp hline with rfl | hline
      · have hname : 10 ∉ name.text := name.notMem (by decide)
        simp [hname]
      · rcases List.mem_map.mp hline with ⟨s, -, rfl⟩
        have hsymbol : 10 ∉ s.text := s.notMem (by decide)
        simp [hsymbol]
  | moduleKabi rows =>
      rcases List.mem_map.mp hline with ⟨r, -, rfl⟩
      exact r.newline_notMem

theorem grepW_lines : grepW sym (fileLines (unlines file.lines)) = true ↔ file.Shows sym := by
  rw [fileLines_unlines file.newline_notMem, grepW_iff]
  rfl

/-- A symbol between tabs or the ends of the line occurs there, unless its end is taken for that of
the line. -/
theorem occurs_entry (hend : sym.getLast? ≠ some 36) (front back : List UInt8)
    (hfront : front.getLast? = some 9) (hback : back.head? = none ∨ back.head? = some 9) :
    Occurs (parse sym) (front ++ (sym ++ back)) := by
  have hatom : ∀ c, (atom c).Matches c := by
    intro c
    unfold atom
    split
    · trivial
    · rfl
  refine ⟨front, sym, back, rfl, ?_, ?_, ?_, ?_⟩
  · rw [parse, if_neg hend, List.forall₂_map_left_iff]
    exact List.forall₂_same.mpr fun c _ => hatom c
  · rw [parse, if_neg hend]
    intro hanchored
    cases hanchored
  · rw [hfront]
    decide
  · rcases hback with hback | hback <;> rw [hback] <;> decide

/-- The file shows its entries, but for those that end in `$`. -/
theorem KabiFile.shows_entry (file : KabiFile) (hsym : sym ∈ file.entries)
    (hend : sym.getLast? ≠ some 36) : file.Shows sym := by
  cases file with
  | stablelist name symbols =>
      rcases List.mem_map.mp hsym with ⟨s, hs, rfl⟩
      have hline : 9 :: s.text ∈ (KabiFile.stablelist name symbols).lines :=
        List.mem_cons_of_mem _ (List.mem_map_of_mem hs)
      have hoccurs := occurs_entry hend [9] [] rfl (.inl rfl)
      rw [List.append_nil] at hoccurs
      exact ⟨_, hline, hoccurs⟩
  | moduleKabi rows =>
      rcases List.mem_map.mp hsym with ⟨r, hr, rfl⟩
      have hoccurs := occurs_entry hend (ascii "0x" ++ (hexadecimal r.crc).leftpad 8 48 ++ [9])
        (9 :: (r.path.text ++ 9 :: r.exportType.text)) (List.getLast?_concat ..) (.inr rfl)
      rw [List.append_assoc, List.singleton_append] at hoccurs
      exact ⟨_, List.mem_map_of_mem hr, hoccurs⟩

def KabiFile.words : KabiFile → List (List UInt8)
  | .stablelist name symbols => wordsOf name.text ++ symbols.flatMap fun s => wordsOf s.text
  | .moduleKabi rows => rows.flatMap fun r =>
      wordsOf (ascii "0x" ++ (hexadecimal r.crc).leftpad 8 48) ++ (wordsOf r.symbol.text ++
        (wordsOf r.path.text ++ wordsOf r.exportType.text))

/-- Of letters, digits and underscores, the file shows what is a word of the header or of a symbol,
a CRC, a path or an export type. -/
theorem KabiFile.shows_word_iff (file : KabiFile) (hne : sym ≠ [])
    (hword : ∀ c ∈ sym, isWord c = true) : file.Shows sym ↔ sym ∈ file.words := by
  have hcons : ∀ (c : UInt8) (line : List UInt8), isWord c = false →
      (sym ∈ wordsOf (c :: line) ↔ sym ∈ wordsOf line) := by
    intro c line hc
    have happend := wordsOf_append hc [] line
    rw [List.nil_append] at happend
    rw [happend, List.mem_append]
    simp [wordsOf, fields, hne]
  unfold KabiFile.Shows
  simp only [occurs_word_iff hword]
  cases file with
  | stablelist name symbols =>
      have hheader : sym ∈ wordsOf (91 :: (name.text ++ [93])) ↔ sym ∈ wordsOf name.text := by
        rw [hcons 91 _ (by decide), wordsOf_append (by decide), List.mem_append]
        simp [wordsOf, fields, hne]
      simp [KabiFile.lines, KabiFile.words, hheader, hcons 9 _ (by decide)]
  | moduleKabi rows =>
      have hrow : ∀ r : Row, wordsOf r.line =
          wordsOf (ascii "0x" ++ (hexadecimal r.crc).leftpad 8 48) ++ (wordsOf r.symbol.text ++
            (wordsOf r.path.text ++ wordsOf r.exportType.text)) := by
        intro r
        unfold Row.line
        rw [wordsOf_append (by decide), wordsOf_append (by decide), wordsOf_append (by decide)]
      simp only [KabiFile.lines, KabiFile.words, List.mem_map, List.mem_flatMap, ← hrow,
        exists_exists_and_eq_and]

/-! ## The verdicts -/

theorem warnLine_inj (h : warnLine sym = warnLine other) : sym = other := by
  unfold warnLine at h
  exact List.append_cancel_left (List.append_cancel_right h)

theorem okLine_ne_warnLine : okLine sym ≠ warnLine other := by
  have hok : ascii "[OK] " = [91, 79, 75, 93, 32] := by decide
  have hwarn : ascii "[WARN] " = [91, 87, 65, 82, 78, 93, 32] := by decide
  unfold okLine warnLine
  rw [hok, hwarn]
  intro h
  cases h

theorem warnLine_mem_iff {u : Undefined} (hu : u ∈ undefined) :
    warnLine u.symbol.text ∈ checkKabi verbose (unlines file.lines) undefined ↔
      ¬file.Shows u.symbol.text := by
  unfold checkKabi
  rw [words_nmU, List.mem_flatMap]
  constructor
  · intro h
    rcases h with ⟨sym, hsym, hline⟩
    split at hline
    case isTrue hfound =>
      split at hline
      · exact absurd (List.mem_singleton.mp hline).symm okLine_ne_warnLine
      · cases hline
    case isFalse hmissing =>
      have hsame := warnLine_inj (List.mem_singleton.mp hline)
      rw [hsame, ← grepW_lines]
      exact hmissing
  · intro h
    refine ⟨u.symbol.text, List.mem_map_of_mem hu, ?_⟩
    rw [if_neg fun hfound => h (grepW_lines.mp hfound)]
    exact List.mem_singleton_self _

/-- The verdicts are right exactly where no symbol without an entry occurs as a word anywhere in the
file, and each entry that ends in `$` does. -/
theorem verdictsRight_iff :
    VerdictsRight verbose file undefined ↔
      ∀ u ∈ undefined,
        (u.symbol.text ∉ file.entries → ¬file.Shows u.symbol.text) ∧
        (u.symbol.text ∈ file.entries → u.symbol.text.getLast? = some 36 →
          file.Shows u.symbol.text) := by
  constructor
  · intro h u hu
    have hverdict := (warnLine_mem_iff hu).symm.trans (h u hu)
    exact ⟨hverdict.mpr, fun hentry _ => not_not.mp fun hnot => hverdict.mp hnot hentry⟩
  · intro h u hu
    rw [warnLine_mem_iff hu]
    rcases h u hu with ⟨hother, hdollar⟩
    constructor
    · intro hnot hentry
      by_cases hend : u.symbol.text.getLast? = some 36
      · exact hnot (hdollar hentry hend)
      · exact hnot (file.shows_entry hentry hend)
    · exact hother

/-- For symbols of letters, digits and underscores: where none without an entry is a word of the
file. -/
theorem verdictsRight_words_iff (hword : ∀ u ∈ undefined, ∀ c ∈ u.symbol.text, isWord c = true) :
    VerdictsRight verbose file undefined ↔
      ∀ u ∈ undefined, u.symbol.text ∈ file.words → u.symbol.text ∈ file.entries := by
  have hend : ∀ u ∈ undefined, u.symbol.text.getLast? ≠ some 36 := by
    intro u hu hlast
    exact absurd (hword u hu 36 (List.mem_of_getLast? hlast)) (by decide)
  apply forall₂_congr
  intro u hu
  rw [warnLine_mem_iff hu, file.shows_word_iff u.symbol.ne_nil (hword u hu), not_iff_not]
  constructor
  · exact Iff.mp
  · intro h
    refine ⟨h, ?_⟩
    intro hentry
    rw [← file.shows_word_iff u.symbol.ne_nil (hword u hu)]
    exact file.shows_entry hentry (hend u hu)

def sampleRow : Row where
  crc := 0x75d19f57
  symbol := ⟨ascii "__alloc_disk_node", by decide, by decide, by decide⟩
  path := ⟨ascii "vmlinux", by decide⟩
  exportType := ⟨ascii "EXPORT_SYMBOL", by decide⟩

/-- A symbol called as the path in the third column is taken for stable. -/
theorem checkKabi_vmlinux :
    ¬VerdictsRight false (.moduleKabi [sampleRow])
      [⟨⟨ascii "U", by decide, by decide, by decide, by decide⟩,
        ⟨ascii "vmlinux", by decide, by decide, by decide⟩⟩] := by
  have hword : (ascii "vmlinux").all isWord = true := by decide
  rw [verdictsRight_words_iff fun u hu => by
    rw [List.mem_singleton.mp hu]
    exact List.all_eq_true.mp hword]
  intro h
  have hentry := h _ (List.mem_singleton_self _) (by
    have hpath : ascii "vmlinux" ∈ wordsOf sampleRow.path.text := by decide
    simp only [KabiFile.words, List.flatMap_singleton, List.mem_append]
    exact .inr (.inr (.inl hpath)))
  exact absurd hentry (by decide)

end KernelTrg.CheckKabi
