import KernelTrg.Lib.Compound
import KernelTrg.Lib.Shell

/-!
# Which threads run on which core

`core_running_what.sh` generates a function for each core, which filters the lines of `ps -eLF`.
The group that shows by example what is generated is never closed, so bash reads the script to
its end and finds a syntax error before anything is generated.
-/

namespace KernelTrg.ProcTable

open Bytes Shell Compound

/-! ## The script -/

def scriptHead : List (List UInt8) :=
  [ascii "#!/bin/bash",
   ascii "# core_running_what.sh",
   ascii "name=$(basename $0)",
   [],
   ascii "# This is how it should be... so we generate the funcs!",
   ascii "[[ 0 -eq 1 ]] && \x7b",
   ascii "# Show thread(s) running on cpu core 'n'  - func c'n'",
   ascii "function c0()",
   ascii "\x7b",
   ascii "ps -eLF |awk '\x7b if($5==0) print $0\x7d'",
   ascii "\x7d",
   []]

def scriptMain : List (List UInt8) :=
  [ascii "# \"main\" ..",
   [],
   ascii "numcores=$(($(nproc)-1))",
   ascii "[[ $\x7bnumcores\x7d -le 0 ]] && numcores=1",
   [],
   ascii "SOURCED_SCRIPT=corefuncs",
   ascii "echo \"Generating script \\\"$\x7bSOURCED_SCRIPT\x7d\\\" for CPU cores 0 to " ++
     ascii "$\x7bnumcores\x7d now...\"",
   ascii "rm -f $\x7bSOURCED_SCRIPT\x7d",
   ascii "for core in $(seq 0 $\x7bnumcores\x7d)",
   ascii "do",
   ascii "  #echo \"core=$\x7bcore\x7d\"",
   ascii "  echo \"function c$\x7bcore\x7d()",
   ascii "\x7b",
   ascii "ps -eLF |awk '\x7b if(\\$5==$\x7bcore\x7d) print \\$0\x7d'",
   ascii "\x7d\" >> $\x7bSOURCED_SCRIPT\x7d",
   [],
   ascii "done",
   ascii "echo \"Done.",
   [],
   ascii "To run:",
   ascii "Step 1. source ./$\x7bSOURCED_SCRIPT\x7d",
   ascii "Step 2. run the builtin functions 'c0', 'c1', 'c2', ...",
   ascii "to see which threads are running on which core.\"",
   ascii "exit 0"]

/-! ## The generated functions -/

/-- `function name() { ps -eLF |awk '{ if($column==value) print $0}' }` -/
structure Func where
  name : List UInt8
  column : Nat
  value : Nat
deriving DecidableEq, Repr

/-- The function prints the line; awk compares a field that is no number as text. -/
def Func.prints (f : Func) (line : List UInt8) : Bool :=
  isNumber (awk f.column line) && decimalValue (awk f.column line) = f.value

def coreName (core : Nat) : List UInt8 := ascii "c" ++ decimal core

def coreFunc (core : Nat) : Func := ⟨coreName core, 5, core⟩

/-- What a run prints, its status, and the functions it writes to `corefuncs`. -/
structure Run where
  out : List UInt8
  status : Nat
  corefuncs : List Func
deriving DecidableEq, Repr

/-- The part of the script behind the group. -/
def generate (nproc : Nat) : Run :=
  let numcores : Int := nproc - 1
  let numcores := if numcores ≤ 0 then 1 else numcores
  { out := ascii "Generating script \"corefuncs\" for CPU cores 0 to " ++ signedDecimal numcores ++
      ascii " now...\nDone.\n\nTo run:\nStep 1. source ./corefuncs\n" ++
      ascii "Step 2. run the builtin functions 'c0', 'c1', 'c2', ...\n" ++
      ascii "to see which threads are running on which core.\n"
    status := 0
    corefuncs := (List.range (numcores.toNat + 1)).map coreFunc }

/-- A script with a syntax error is not run, and its status is 2. -/
def coreRunningWhat (nproc : Nat) : Run :=
  if dueAtEnd (unlines (scriptHead ++ scriptMain)) = [] then generate nproc else ⟨[], 2, []⟩

/-! ## The partition of the threads -/

/-- A line of `ps -eLF`: UID, PID, PPID and LWP, the use of the processor, NLWP, SZ and RSS, the
processor, and the rest. -/
structure ThreadRow where
  front : List (Nat × Column)
  four : front.length = 4
  c : Nat
  middle : List (Nat × Column)
  three : middle.length = 3
  psr : Nat
  blanks : Nat × Nat
  rest : List UInt8

def ThreadRow.line (th : ThreadRow) : List UInt8 :=
  tableRow (th.front ++ (th.blanks.1, .ofNat th.c) :: th.middle ++ [(th.blanks.2, .ofNat th.psr)])
    th.rest

/-- The functions are those of the cores, and each thread is printed by one of them, that of the
processor it is on. -/
structure Partitions (n : Nat) (table : List ThreadRow) (funcs : List Func) : Prop where
  names : funcs.map Func.name = (List.range n).map coreName
  once : ∀ th ∈ table, (funcs.filter fun f => f.prints th.line).map Func.name = [coreName th.psr]

variable {n : Nat} {table : List ThreadRow} {th : ThreadRow}

set_option maxRecDepth 4000 in
/-- The group is still open where the script ends. -/
theorem script_due : dueAtEnd (unlines (scriptHead ++ scriptMain)) = [ascii "\x7d"] := by
  decide +kernel

theorem coreRunningWhat_eq (nproc : Nat) : coreRunningWhat nproc = ⟨[], 2, []⟩ := by
  unfold coreRunningWhat
  rw [script_due]
  rfl

theorem not_partitions_nil (hn : 1 ≤ n) : ¬Partitions n table [] := by
  intro h
  have hlength := congrArg List.length h.names
  simp at hlength
  omega

theorem ThreadRow.awk_c (th : ThreadRow) : awk 5 th.line = decimal th.c := by
  unfold awk ThreadRow.line
  rw [awkFields_tableRow]
  simp [List.getD_eq_getElem?_getD, th.four, Column.ofNat]

theorem coreFunc_prints (core : Nat) (th : ThreadRow) :
    (coreFunc core).prints th.line = decide (core = th.c) := by
  unfold Func.prints coreFunc
  rw [th.awk_c, (isNumber_decimal th.c).1, decimalValue_decimal, Bool.true_and]
  exact decide_eq_decide.mpr eq_comm

theorem filter_coreFunc (m : Nat) (th : ThreadRow) :
    ((List.range m).map coreFunc).filter (fun f => f.prints th.line) =
      if th.c < m then [coreFunc th.c] else [] := by
  have hprints : (fun core => (coreFunc core).prints th.line) = fun core => core == th.c := by
    funext core
    rw [coreFunc_prints]
    rfl
  have hrange : (List.range m).filter (· == th.c) = if th.c < m then [th.c] else [] := by
    rw [List.filter_beq]
    by_cases hlt : th.c < m
    · rw [if_pos hlt, List.count_eq_one_of_mem List.nodup_range (List.mem_range.mpr hlt)]
      rfl
    · rw [if_neg hlt, List.count_eq_zero.mpr fun hmem => hlt (List.mem_range.mp hmem)]
      rfl
  rw [List.filter_map]
  change ((List.range m).filter fun core => (coreFunc core).prints th.line).map coreFunc = _
  rw [hprints, hrange]
  split <;> rfl

/-- The generated functions: one for each core, and two where there is one core. -/
theorem generate_corefuncs (hn : 1 ≤ n) :
    (generate n).corefuncs = (List.range (if n = 1 then 2 else n)).map coreFunc := by
  have hcount : (if (n : Int) - 1 ≤ 0 then 1 else (n : Int) - 1).toNat + 1 =
      if n = 1 then 2 else n := by
    split <;> split <;> omega
  unfold generate
  dsimp only
  rw [hcount]

theorem coreName_inj {m k : Nat} (h : coreName m = coreName k) : m = k :=
  decimal_inj (List.append_cancel_left h)

/-- Behind the group the script would do for several cores, each thread's use of the processor
being the number of its core. -/
theorem generate_partitions_iff (hn : 1 ≤ n) :
    Partitions n table (generate n).corefuncs ↔
      n ≠ 1 ∧ ∀ th ∈ table, th.c = th.psr ∧ th.psr < n := by
  rw [generate_corefuncs hn]
  constructor
  · intro h
    have hlength := congrArg List.length h.names
    rw [List.length_map, List.length_map, List.length_map, List.length_range,
      List.length_range] at hlength
    have hmany : n ≠ 1 := by
      intro hone
      rw [if_pos hone] at hlength
      omega
    refine ⟨hmany, ?_⟩
    intro th hth
    have honce := h.once th hth
    rw [if_neg hmany, filter_coreFunc] at honce
    split at honce
    case isTrue hlt =>
      have hname : coreName th.c = coreName th.psr := List.singleton_injective honce
      have hcore := coreName_inj hname
      exact ⟨hcore, hcore ▸ hlt⟩
    case isFalse => cases honce
  · intro h
    rcases h with ⟨hmany, hcores⟩
    rw [if_neg hmany]
    constructor
    case names =>
      rw [List.map_map]
      rfl
    case once =>
      intro th hth
      rcases hcores th hth with ⟨hcore, hlt⟩
      rw [filter_coreFunc, hcore, if_pos hlt]
      rfl

/-- For no number of cores and no table does the script partition the threads: it generates
nothing. What stands behind the group would do so exactly for several cores, each thread's use of
the processor being the number of its core. -/
theorem coreRunningWhat_partitions (hn : 1 ≤ n) :
    ¬Partitions n table (coreRunningWhat n).corefuncs ∧
      (Partitions n table (generate n).corefuncs ↔
        n ≠ 1 ∧ ∀ th ∈ table, th.c = th.psr ∧ th.psr < n) := by
  constructor
  · rw [coreRunningWhat_eq]
    exact not_partitions_nil hn
  · exact generate_partitions_iff hn

def busyRow : ThreadRow where
  front := List.replicate 4 (1, .ofNat 1)
  four := rfl
  c := 99
  middle := List.replicate 3 (1, .ofNat 1)
  three := rfl
  psr := 1
  blanks := (1, 1)
  rest := ascii "10:00 ?        00:00:03 /sbin/init"

theorem coreRunningWhat_partitions_busy :
    ¬Partitions 2 [busyRow] (coreRunningWhat 2).corefuncs ∧
      (Partitions 2 [busyRow] (generate 2).corefuncs ↔
        2 ≠ 1 ∧ ∀ th ∈ [busyRow], th.c = th.psr ∧ th.psr < 2) :=
  coreRunningWhat_partitions (by decide)

/-- Two cores and one thread: no function is generated, and `c1` would not print the thread. -/
theorem coreRunningWhat_two_cores :
    ¬Partitions 2 [busyRow] (coreRunningWhat 2).corefuncs ∧
      ¬Partitions 2 [busyRow] (generate 2).corefuncs := by
  constructor
  · rw [coreRunningWhat_eq]
    exact not_partitions_nil (by decide)
  · rw [generate_partitions_iff (by decide)]
    decide

end KernelTrg.ProcTable
