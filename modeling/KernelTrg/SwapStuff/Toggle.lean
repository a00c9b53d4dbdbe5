import KernelTrg.Lib.Shell
import KernelTrg.Lib.Turns

/-!
# Emptying the swap

`toggle_swap.sh` looks every five minutes at what `free` prints. Where enough of the swap is
in use, and the memory seems to have room for it, it turns the swap off and on again; where
the memory has none it ends.
-/

namespace KernelTrg.SwapStuff

open Bytes Shell Turns

/-! ## The script -/

inductive Command where
  | notifySend (message : List UInt8)
  | swapoff
  | swapon
  | echo (text : List UInt8)
  | sleep (seconds : Nat)
deriving DecidableEq, Repr

/-- What a turn of the loop meets: the text that `free` prints, the status of `swapoff -a`, and
that of `notify-send` where it tells of a success. -/
structure Answers where
  free : List UInt8
  swapoff : Nat
  notifySend : Nat

abbrev swapThresholdMb : Nat := 175

abbrev tmoutMin : Nat := 5

def msgSwapoffAttempt (name : List UInt8) : List UInt8 :=
  name ++ ascii " :: Swap usage high [" ++ decimal swapThresholdMb ++
    ascii " MB], attempting swapoff -a now..."

/-- The message is made before there are numbers to put into it. -/
def msgSwapFreed (name : List UInt8) : List UInt8 :=
  name ++ ascii " :: Freed SWAP : Free memory:  kB (0 MB). Used swap:  kB (0 MB)"

def msgSwapoffFailed (name : List UInt8) : List UInt8 :=
  name ++ ascii " :: Swap usage high [" ++ decimal swapThresholdMb ++
    ascii " MB], swapoff -a cmd failed"

def msgStarting (name : List UInt8) : List UInt8 :=
  name ++ ascii " : starting...(timeout interval: " ++ decimal tmoutMin ++ ascii " min)"

/-- The numbers that `getData` leaves in `total_free` and `used_swap`. -/
structure Data where
  totalFree : Int64
  usedSwap : Int64

/-- `echo "$text" | grep label` -/
def grep (label text : List UInt8) : List (List UInt8) :=
  (fileLines text).filter (label <:+: ·)

/-- `$(echo "$lines" | awk '{print $n}')` -/
def column (n : Nat) (lines : List (List UInt8)) : List UInt8 :=
  List.intercalate [10] (lines.map (awk n))

/-- `none` where the text holds something else than numbers. -/
def getData (free : List UInt8) : Option Data := do
  let memData := grep (ascii "Mem:") free
  let freeMem ← arith10 (column 4 memData)
  let buffers ← arith10 (column 6 memData)
  let cache ← arith10 (column 7 memData)
  let usedSwap ← arith10 (column 3 (grep (ascii "Swap:") free))
  pure ⟨freeMem + buffers + cache, usedSwap⟩

/-- `swapoff -a` and what is told of it: of a failure also where it was only `notify-send`
that failed. -/
def swapoffAll (name : List UInt8) (a : Answers) : List Command :=
  .swapoff ::
    if a.swapoff = 0 then
      .notifySend (msgSwapFreed name) ::
        if a.notifySend = 0 then [] else [.notifySend (msgSwapoffFailed name)]
    else [.notifySend (msgSwapoffFailed name)]

/-- What is done, and the status if the script ends here. -/
def toggleSwap (name : List UInt8) (a : Answers) (d : Data) : List Command × Option Nat :=
  if d.usedSwap < d.totalFree then
    let usedSwapMb := d.usedSwap / 1024
    if .ofNat swapThresholdMb ≤ usedSwapMb then
      (.notifySend (msgSwapoffAttempt name) :: (swapoffAll name a ++ [.swapon]), none)
    else ([], none)
  else ([.echo (ascii "Not enough free memory. Exiting.\n")], some 1)

def mainBody (name : List UInt8) (a : Answers) : Option (List Command × Option Nat) :=
  (getData a.free).map fun d =>
    match toggleSwap name a d with
    | (acts, some status) => (acts, some status)
    | (acts, none) => (acts ++ [.sleep (tmoutMin * 60)], none)

def main (name : List UInt8) (answers : List Answers) : Option (List Command × Option Nat) :=
  loop (mainBody name) answers

/-- The script, as the user `uid`. -/
def toggleSwapSh (uid : Nat) (name : List UInt8) (answers : List Answers) :
    Option (List Command × Option Nat) :=
  if uid ≠ 0 then some ([.echo (name ++ ascii ": need to run as root (sudo)\n")], some 1)
  else
    (main name answers).map fun run =>
      (.notifySend (msgStarting name) :: run.1, run.2)

/-! ## What `free` prints -/

/-- The numbers of the memory and of the swap in KB; addresses have 64 bits. -/
structure Meminfo where
  total : Nat
  used : Nat
  free : Nat
  shared : Nat
  buffers : Nat
  cached : Nat
  available : Nat
  swapTotal : Nat
  swapUsed : Nat
  swapFree : Nat
  small : free < 2 ^ 54 ∧ buffers < 2 ^ 54 ∧ cached < 2 ^ 54 ∧ available < 2 ^ 54 ∧
    swapUsed < 2 ^ 54

/-- Old versions of `free` have a column each for the buffers and the cached pages; new ones
have one for both, and one for what is available. -/
inductive Layout where
  | cached
  | available
deriving DecidableEq, Repr

/-- The numbers in the row of the memory, the last one apart. -/
def Layout.columns (layout : Layout) (m : Meminfo) : List Nat × Nat :=
  match layout with
  | .cached => ([m.total, m.used, m.free, m.shared, m.buffers], m.cached)
  | .available => ([m.total, m.used, m.free, m.shared, m.buffers + m.cached], m.available)

/-- A label without blanks, and numbers with some blanks in front. -/
def row (label : Column) (blanks : Nat → Nat) (ns : List Nat) (last : Nat) : List UInt8 :=
  tableRow ((0, label) :: ns.zipIdx.map fun n => (blanks n.2, .ofNat n.1))
    (List.replicate (blanks ns.length) 32 ++ decimal last)

def memLabel : Column := ⟨ascii "Mem:", by decide, by decide, by decide, by decide⟩

def swapLabel : Column := ⟨ascii "Swap:", by decide, by decide, by decide, by decide⟩

/-- What `free` prints: a header, the row of the memory, the row that old versions have behind
it, and the row of the swap. Only the labels of the two rows are capitalized. -/
structure Printed where
  layout : Layout
  memory : Meminfo
  blanks : Nat → Nat
  header : List UInt8
  between : List (List UInt8)
  plain : ∀ line ∈ header :: between, ∀ c ∈ line, c ≠ 10 ∧ c ≠ 77 ∧ c ≠ 83

def Printed.memRow (p : Printed) : List UInt8 :=
  row memLabel p.blanks (p.layout.columns p.memory).1 (p.layout.columns p.memory).2

def Printed.swapRow (p : Printed) : List UInt8 :=
  row swapLabel p.blanks [p.memory.swapTotal, p.memory.swapUsed] p.memory.swapFree

def Printed.text (p : Printed) : List UInt8 :=
  unlines (p.header :: p.memRow :: (p.between ++ [p.swapRow]))

/-- What the script adds up as the room for the swapped pages. With the new layout it counts the
free pages, buffers and cached ones twice, as far as they are available. -/
def Printed.room (p : Printed) : Nat :=
  match p.layout with
  | .cached => p.memory.free + p.memory.buffers + p.memory.cached
  | .available => p.memory.free + (p.memory.buffers + p.memory.cached) + p.memory.available

/-- A turn: what `free` prints, and how turning the swap off and telling of it go. -/
structure Turn extends Printed where
  swapoff : Nat
  notifySend : Nat

def Turn.answers (t : Turn) : Answers := ⟨t.text, t.swapoff, t.notifySend⟩

/-! ## What the script should do -/

def Turn.roomy (t : Turn) : Bool := t.memory.swapUsed < t.room

/-- So much of the swap is in use that it is worth emptying. -/
def Turn.high (t : Turn) : Bool := swapThresholdMb ≤ t.memory.swapUsed / 1024

def Turn.served (name : List UInt8) (t : Turn) : List Command :=
  (if t.high then
    .notifySend (msgSwapoffAttempt name) :: (swapoffAll name t.answers ++ [.swapon])
  else []) ++ [.sleep (tmoutMin * 60)]

def noRoom : Command := .echo (ascii "Not enough free memory. Exiting.\n")

/-- Whether the last command about the swap was to turn it on. -/
def Command.after (on : Bool) : Command → Bool
  | .swapoff => false
  | .swapon => true
  | _ => on

/-- The script goes on as long as there is room and then ends with 1. Until then it turns the
swap off in the turns where much of it is in use, and nowhere else; whenever the script sleeps,
and at the end, it has told the swap to be on again. -/
structure Serves (name : List UInt8) (turns : List Turn) (run : List Command × Option Nat) :
    Prop where
  status_eq : run.2 = if turns.all Turn.roomy then none else some 1
  log_eq : run.1 = .notifySend (msgStarting name) ::
    ((turns.takeWhile Turn.roomy).flatMap (Turn.served name) ++
      if turns.all Turn.roomy then [] else [noRoom])
  swap_on : Home Command.after (fun k => ∃ n, k = .sleep n) true run.1

variable {p : Printed} {t : Turn} {name : List UInt8}

/-! ## Reading the numbers -/

theorem awkFields_row (label : Column) (blanks : Nat → Nat) (ns : List Nat) (last : Nat) :
    awkFields (row label blanks ns last) = label.text :: (ns.map decimal ++ [decimal last]) := by
  have hlast : awkFields (decimal last) = [decimal last] := awkFields_text (.ofNat last)
  have htexts : (ns.zipIdx.map fun n => (blanks n.2, Column.ofNat n.1)).map (·.2.text) =
      ns.map decimal := by
    conv_rhs => rw [← List.zipIdx_map_fst 0 ns]
    rw [List.map_map, List.map_map]
    rfl
  unfold row
  rw [awkFields_tableRow, awkFields_blanks, List.map_cons, htexts, hlast]
  rfl

theorem mem_row {label : Column} {blanks : Nat → Nat} {ns : List Nat} {last : Nat} {c : UInt8}
    (h : c ∈ row label blanks ns last) : c = 32 ∨ c ∈ label.text ∨ 48 ≤ c ∧ c ≤ 57 := by
  rcases mem_tableRow h with h | ⟨column, hcolumn, h⟩ | h
  · exact .inl h
  · rcases List.mem_cons.mp hcolumn with rfl | hcolumn
    · exact .inr (.inl h)
    · rcases List.mem_map.mp hcolumn with ⟨n, -, rfl⟩
      exact .inr (.inr (mem_decimal h))
  · rcases List.mem_append.mp h with h | h
    · exact .inl (List.mem_replicate.mp h).2
    · exact .inr (.inr (mem_decimal h))

theorem notMem_row {label : Column} {c : UInt8} (hblank : c ≠ 32) (hlabel : c ∉ label.text)
    (hdigit : ¬(48 ≤ c ∧ c ≤ 57)) (blanks : Nat → Nat) (ns : List Nat) (last : Nat) :
    c ∉ row label blanks ns last := by
  intro h
  rcases mem_row h with h | h | h
  · exact hblank h
  · exact hlabel h
  · exact hdigit h

theorem not_infix {c : UInt8} {label line : List UInt8} (hc : c ∈ label) (hline : c ∉ line) :
    ¬label <:+: line :=
  fun h => hline (h.subset hc)

theorem Printed.fileLines_text (p : Printed) :
    fileLines p.text = p.header :: p.memRow :: (p.between ++ [p.swapRow]) := by
  apply fileLines_unlines
  intro line hline
  rcases List.mem_cons.mp hline with rfl | hline
  · exact fun h => (p.plain p.header List.mem_cons_self 10 h).1 rfl
  · rcases List.mem_cons.mp hline with rfl | hline
    · exact notMem_row (by decide) (by decide) (by decide) _ _ _
    · rcases List.mem_append.mp hline with hline | hline
      · exact fun h => (p.plain line (List.mem_cons_of_mem _ hline) 10 h).1 rfl
      · rw [List.mem_singleton.mp hline]
        exact notMem_row (by decide) (by decide) (by decide) _ _ _

theorem Printed.not_infix_plain (p : Printed) {label line : List UInt8}
    (h : 77 ∈ label ∨ 83 ∈ label) (hline : line ∈ p.header :: p.between) : ¬label <:+: line := by
  rcases h with h | h
  · exact not_infix h fun hmem => (p.plain line hline 77 hmem).2.1 rfl
  · exact not_infix h fun hmem => (p.plain line hline 83 hmem).2.2 rfl

theorem Printed.grep_eq (p : Printed) {label : List UInt8} (h : 77 ∈ label ∨ 83 ∈ label) :
    grep label p.text = [p.memRow, p.swapRow].filter (label <:+: ·) := by
  have hheader := p.not_infix_plain h List.mem_cons_self
  have hbetween : p.between.filter (label <:+: ·) = [] := by
    rw [List.filter_eq_nil_iff]
    intro line hline hinfix
    exact p.not_infix_plain h (List.mem_cons_of_mem _ hline) (of_decide_eq_true hinfix)
  unfold grep
  rw [p.fileLines_text, List.filter_cons_of_neg (by simpa using hheader), ← List.singleton_append,
    List.filter_append, List.filter_append, hbetween, List.nil_append, ← List.filter_append]
  rfl

theorem Printed.grep_mem (p : Printed) : grep (ascii "Mem:") p.text = [p.memRow] := by
  have hmem : ascii "Mem:" <:+: p.memRow := ⟨[], _, rfl⟩
  have hswap : ¬ascii "Mem:" <:+: p.swapRow :=
    not_infix (show (77 : UInt8) ∈ ascii "Mem:" by decide)
      (notMem_row (by decide) (by decide) (by decide) _ _ _)
  rw [p.grep_eq (.inl (by decide))]
  simp [hmem, hswap]

theorem Printed.grep_swap (p : Printed) : grep (ascii "Swap:") p.text = [p.swapRow] := by
  have hmem : ¬ascii "Swap:" <:+: p.memRow :=
    not_infix (show (83 : UInt8) ∈ ascii "Swap:" by decide)
      (notMem_row (by decide) (by decide) (by decide) _ _ _)
  have hswap : ascii "Swap:" <:+: p.swapRow := ⟨[], _, rfl⟩
  rw [p.grep_eq (.inr (by decide))]
  simp [hmem, hswap]

theorem column_row (n : Nat) (label : Column) (blanks : Nat → Nat) (ns : List Nat) (last : Nat) :
    column n [row label blanks ns last] =
      (label.text :: (ns.map decimal ++ [decimal last])).getD (n - 1) [] := by
  rw [← awkFields_row label blanks ns last, column, List.map_singleton, List.intercalate_singleton]
  rfl

/-- The script finds its numbers in both layouts. -/
theorem Printed.getData_text (p : Printed) :
    getData p.text = some ⟨.ofNat p.room, .ofNat p.memory.swapUsed⟩ := by
  unfold getData
  rw [p.grep_mem, p.grep_swap]
  unfold Printed.memRow Printed.swapRow Printed.room
  simp only [column_row]
  cases p.layout with
  | cached => simp [Layout.columns, arith10_decimal]
  | available => simp [Layout.columns, arith10_decimal]

/-! ## A turn and a run -/

theorem Printed.room_lt (p : Printed) : p.room < 2 ^ 63 := by
  have hsmall := p.memory.small
  unfold Printed.room
  split <;> omega

/-- The comparisons of the script are those of the numbers. -/
theorem mainBody_answers (name : List UInt8) (t : Turn) :
    mainBody name t.answers =
      some (if t.roomy then (t.served name, none) else ([noRoom], some 1)) := by
  have hused : t.memory.swapUsed < 2 ^ 63 := by
    have hsmall := t.memory.small
    omega
  have hroomy : (Int64.ofNat t.memory.swapUsed < .ofNat t.room) ↔ t.roomy = true := by
    rw [Int64.ofNat_lt_iff_lt hused t.room_lt, Turn.roomy, decide_eq_true_iff]
  have hhigh : (Int64.ofNat swapThresholdMb ≤ .ofNat t.memory.swapUsed / 1024) ↔
      t.high = true := by
    change Int64.ofNat swapThresholdMb ≤ .ofNat t.memory.swapUsed / .ofNat 1024 ↔ _
    rw [← Int64.ofNat_div hused (by decide), Int64.ofNat_le_iff_le (by decide) (by omega),
      Turn.high, decide_eq_true_iff]
  unfold mainBody
  rw [show t.answers.free = t.text from rfl, t.getData_text, Option.map_some]
  unfold toggleSwap Turn.served
  simp only [hroomy, hhigh]
  cases t.roomy <;> cases t.high <;> rfl

/-- The swap is not left turned off when the script goes to sleep. -/
theorem served_home (name : List UInt8) (t : Turn) :
    Home Command.after (fun k => ∃ n, k = .sleep n) true (t.served name) := by
  unfold Turn.served
  apply Home.of_quiet
  · cases t.high
    · rfl
    · simp [Command.after]
  · rw [List.dropLast_concat]
    unfold swapoffAll
    cases t.high <;> by_cases hoff : t.answers.swapoff = 0 <;>
      by_cases hsend : t.answers.notifySend = 0 <;> simp [hoff, hsend]

end KernelTrg.SwapStuff
