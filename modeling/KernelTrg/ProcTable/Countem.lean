import KernelTrg.Lib.Shell
import KernelTrg.Lib.Strict

/-!
# Counting processes and threads

`countem.sh` counts the lines that `ps` prints, header and all, and the commands in square
brackets among them; `countem2.sh` differs in two labels and in the number of stacks.
-/

namespace KernelTrg.ProcTable

open Bytes Shell Strict

/-! ## The tables -/

/-- A line of `ps -LAf`: nine columns, then the command, which for a kernel thread is its name
in square brackets. -/
structure Thread where
  columns : List (Nat × Column)
  nine : columns.length = 9
  command : List UInt8
  newline_notMem : 10 ∉ command
  kernel : Bool
  bracketed : kernel = true → command.head? = some 91

def Thread.line (th : Thread) : List UInt8 := tableRow th.columns th.command

/-- The lines of `ps -A` behind the header, and the threads of `ps -LAf`. -/
structure Table where
  processes : List (List UInt8)
  newline_notMem : ∀ line ∈ processes, 10 ∉ line
  threads : List Thread

def psHeader : List UInt8 := ascii "    PID TTY          TIME CMD"

def psA (t : Table) : List UInt8 := unlines (psHeader :: t.processes)

def psLAfHeader : List UInt8 :=
  ascii "UID          PID    PPID     LWP  C NLWP STIME TTY          TIME CMD"

def psLAf (t : Table) : List UInt8 := unlines (psLAfHeader :: t.threads.map Thread.line)

/-! ## The scripts -/

def wc (text : List UInt8) : Nat := text.count 10

/-- `printf "label%9d\n"` -/
def numberRow (label : List UInt8) (n : Nat) : List UInt8 :=
  label ++ ((decimal n).leftpad 9 32 ++ [10])

/-- `grep "^\["` -/
def grepBracket (lines : List (List UInt8)) : List (List UInt8) :=
  lines.filter fun line => line.head? = some 91

def prcsLabel : List UInt8 := ascii "1. Total # of processes alive                        = "

def thrdsLabel : List UInt8 := ascii "2. Total # of threads alive                          = "

def kthrdsLabel : List UInt8 := ascii "3. Total # of kernel threads alive                   = "

/-- The two scripts; they differ in the labels and in what they take for the number of stacks. -/
def counting (uthrdsLabel stacksLabel : List UInt8) (stackCount : Nat → Nat → Nat) (t : Table) :
    Script Unit := do
  let totalPrcs := wc (psA t)
  print (numberRow prcsLabel totalPrcs)
  let totalThrds := wc (psLAf t)
  print (numberRow thrdsLabel totalThrds)
  let kthrds := grepBracket ((fileLines (psLAf t)).map (awk 10))
  let totalKthrds ← checked (pipefail [0, 0, if kthrds = [] then 1 else 0, 0]) kthrds.length
  print (numberRow kthrdsLabel totalKthrds)
  print (ascii " (each kthread will have a kernel-mode stack)\n")
  let totalUthrds := totalThrds - totalKthrds
  print (numberRow uthrdsLabel totalUthrds)
  print (ascii " (each uthread will have both a user and kernel-mode stack)\n")
  print (numberRow stacksLabel (stackCount totalKthrds totalUthrds))
  exit 0

def countemUthrds : List UInt8 := ascii "4. Thus, total # of user mode threads = (2) - (3)    = "

def countemStacks : List UInt8 := ascii "5. Thus, total # of kernel-mode stacks = (3) + (4)*2 = "

def countem2Uthrds : List UInt8 := ascii "4. Thus, total # of user mode threads  = (2) - (3)   = "

def countem2Stacks : List UInt8 := ascii "5. Thus, total # of kernel-mode stacks = (3) + (4)   = "

def countem : Table → Script Unit := counting countemUthrds countemStacks fun k u => k + u * 2

def countem2 : Table → Script Unit := counting countem2Uthrds countem2Stacks fun k u => k + u

/-! ## What they print -/

/-- The text of a run that is not cut short, with its five numbers. -/
def figures (uthrdsLabel stacksLabel : List UInt8) (p t k u s : Nat) : List UInt8 :=
  numberRow prcsLabel p ++ (numberRow thrdsLabel t ++ (numberRow kthrdsLabel k ++
    (ascii " (each kthread will have a kernel-mode stack)\n" ++ (numberRow uthrdsLabel u ++
    (ascii " (each uthread will have both a user and kernel-mode stack)\n" ++
    numberRow stacksLabel s)))))

def kernelThreads (t : Table) : Nat := t.threads.countP Thread.kernel

/-- The script exits with 0 and prints the number of processes, of threads, of kernel threads and
of the other threads, and a stack for each thread, as `countem2.sh` does. -/
structure CountsRight (t : Table) : Prop where
  report : countem t =
    ⟨figures countemUthrds countemStacks t.processes.length t.threads.length (kernelThreads t)
      (t.threads.length - kernelThreads t)
      (kernelThreads t + (t.threads.length - kernelThreads t)), .error 0⟩
  agrees : ∃ front, (countem2 t).out =
    front ++ numberRow countem2Stacks (kernelThreads t + (t.threads.length - kernelThreads t))

variable {t : Table} {th : Thread} {label u s : List UInt8} {stackCount : Nat → Nat → Nat}

theorem wc_unlines {lines : List (List UInt8)} (h : ∀ line ∈ lines, 10 ∉ line) :
    wc (unlines lines) = lines.length := by
  unfold wc
  induction lines with
  | nil => rfl
  | cons line lines ih =>
      have hline : line.count 10 = 0 := List.count_eq_zero.mpr (h line (by simp))
      have hlines := ih fun l hl => h l (by simp [hl])
      unfold unlines at hlines ⊢
      rw [List.flatMap_cons, List.count_append, List.count_append, hline, hlines]
      simp [Nat.add_comm]

theorem Thread.newline_notMem_line (th : Thread) : 10 ∉ th.line :=
  newline_notMem_tableRow th.newline_notMem

theorem newline_notMem_psHeader : 10 ∉ psHeader := by decide

theorem newline_notMem_psLAf (t : Table) :
    ∀ line ∈ psLAfHeader :: t.threads.map Thread.line, 10 ∉ line := by
  intro line hline
  rcases List.mem_cons.mp hline with rfl | hline
  · decide
  · rcases List.mem_map.mp hline with ⟨th, -, rfl⟩
    exact th.newline_notMem_line

theorem wc_psA (t : Table) : wc (psA t) = t.processes.length + 1 := by
  unfold psA
  rw [wc_unlines, List.length_cons]
  intro line hline
  rcases List.mem_cons.mp hline with rfl | hline
  · exact newline_notMem_psHeader
  · exact t.newline_notMem line hline

theorem wc_psLAf (t : Table) : wc (psLAf t) = t.threads.length + 1 := by
  unfold psLAf
  rw [wc_unlines (newline_notMem_psLAf t), List.length_cons, List.length_map]

theorem Thread.awk_line (th : Thread) : awk 10 th.line = awk 1 th.command := by
  unfold awk Thread.line
  rw [awkFields_tableRow, List.getD_eq_getElem?_getD,
    List.getElem?_append_right (by simp [th.nine])]
  simp [th.nine, List.getD_eq_getElem?_getD]

def bracketed (t : Table) : List Thread :=
  t.threads.filter fun th => (awk 1 th.command).head? = some 91

theorem grepBracket_psLAf (t : Table) :
    grepBracket ((fileLines (psLAf t)).map (awk 10)) =
      (bracketed t).map fun th => awk 1 th.command := by
  have hawk : awk 10 ∘ Thread.line = fun th => awk 1 th.command := funext Thread.awk_line
  unfold psLAf grepBracket bracketed
  rw [fileLines_unlines (newline_notMem_psLAf t), List.map_cons,
    List.filter_cons_of_neg (by decide), List.map_map, hawk, List.filter_map]
  rfl

/-- What the scripts do: without a bracketed command `grep` fails, and the script with it. -/
theorem counting_eq (t : Table) :
    counting u s stackCount t =
      if bracketed t = [] then
        ⟨numberRow prcsLabel (t.processes.length + 1) ++
          numberRow thrdsLabel (t.threads.length + 1), .error 1⟩
      else
        ⟨figures u s (t.processes.length + 1) (t.threads.length + 1) (bracketed t).length
          (t.threads.length + 1 - (bracketed t).length)
          (stackCount (bracketed t).length (t.threads.length + 1 - (bracketed t).length)),
          .error 0⟩ := by
  unfold counting
  simp only [wc_psA, wc_psLAf, grepBracket_psLAf, List.length_map, List.map_eq_nil_iff]
  by_cases hnone : bracketed t = []
  · simp [hnone, pipefail, checked, exit]
  · simp [hnone, pipefail, checked, exit, figures]

theorem numberRow_inj {m n : Nat} {rest rest' : List UInt8}
    (h : numberRow label m ++ rest = numberRow label n ++ rest') : m = n := by
  unfold numberRow at h
  simp only [List.append_assoc, List.append_cancel_left_eq, List.singleton_append] at h
  have htake : ∀ (k : Nat) (tail : List UInt8),
      ((decimal k).leftpad 9 32 ++ 10 :: tail).takeWhile (· ≠ 10) =
        (decimal k).leftpad 9 32 := by
    intro k tail
    have hnewline : 10 ∉ (decimal k).leftpad 9 32 := by
      intro h
      rcases mem_leftpad h with hblank | hdigit
      · exact absurd hblank (by decide)
      · exact (Column.ofNat k).newline_notMem hdigit
    rw [takeWhile_append_of_notMem hnewline]
    simp
  have hfield := congrArg (List.takeWhile (· ≠ 10)) h
  rw [htake, htake] at hfield
  apply decimal_inj
  rw [← ltrim_decimal m 9, hfield, ltrim_decimal]

theorem counting_ne (t : Table) (k n m : Nat) :
    counting u s stackCount t ≠
      ⟨figures u s t.processes.length t.threads.length k n m, .error 0⟩ := by
  intro hreport
  rw [counting_eq] at hreport
  split at hreport
  case isTrue =>
    rw [Script.mk.injEq, Except.error.injEq] at hreport
    exact absurd hreport.2 (by decide)
  case isFalse =>
    rw [Script.mk.injEq] at hreport
    have hfigures := hreport.1
    unfold figures at hfigures
    have hlength : t.processes.length + 1 = t.processes.length := numberRow_inj hfigures
    omega

/-- Where only the names of kernel threads are in brackets, they are counted right; the header
makes one more process and one more user thread, whose stacks are counted twice. -/
theorem countem_prints
    (h : ∀ th ∈ t.threads, th.kernel = false → (awk 1 th.command).head? ≠ some 91) :
    countem t =
      if kernelThreads t = 0 then
        ⟨numberRow prcsLabel (t.processes.length + 1) ++
          numberRow thrdsLabel (t.threads.length + 1), .error 1⟩
      else
        ⟨figures countemUthrds countemStacks (t.processes.length + 1) (t.threads.length + 1)
          (kernelThreads t) (t.threads.length + 1 - kernelThreads t)
          (kernelThreads t + (t.threads.length + 1 - kernelThreads t) * 2), .error 0⟩ := by
  have hlength : (bracketed t).length = kernelThreads t := by
    unfold bracketed kernelThreads
    rw [List.countP_eq_length_filter]
    congr 1
    apply List.filter_congr
    intro th hth
    cases hkernel : th.kernel with
    | false => simpa using h th hth hkernel
    | true =>
        cases hcommand : th.command with
        | nil => simpa [hcommand] using th.bracketed hkernel
        | cons c rest =>
            have hc : c = 91 := by simpa [hcommand] using th.bracketed hkernel
            simp [hc, head?_awk]
  have hnone : bracketed t = [] ↔ kernelThreads t = 0 := by
    rw [← hlength, List.length_eq_zero_iff]
  unfold countem
  rw [counting_eq, hlength]
  simp only [hnone]

/-- In runs that are not cut short the two scripts print different numbers of stacks. -/
theorem stacks_differ (h : bracketed t ≠ []) :
    ∃ front front2 m n, m ≠ n ∧
      (countem t).out = front ++ numberRow countemStacks m ∧
      (countem2 t).out = front2 ++ numberRow countem2Stacks n := by
  have hle : (bracketed t).length ≤ t.threads.length := List.length_filter_le ..
  unfold countem countem2
  rw [counting_eq, counting_eq, if_neg h, if_neg h]
  unfold figures
  simp only [← List.append_assoc]
  exact ⟨_, _, _, _, by omega, rfl, rfl⟩

/-- No table is counted right. -/
theorem countem_counts_never (t : Table) : ¬CountsRight t := fun h => counting_ne t _ _ _ h.report

def smallTable : Table where
  processes :=
    [ascii "      1 ?        00:00:03 systemd",
     ascii "      2 ?        00:00:00 kthreadd"]
  newline_notMem := by decide
  threads :=
    [{ columns := List.replicate 9 (1, Column.ofNat 1)
       nine := rfl
       command := ascii "/sbin/init"
       newline_notMem := by decide
       kernel := false
       bracketed := by decide },
     { columns := List.replicate 9 (1, Column.ofNat 2)
       nine := rfl
       command := ascii "[kthreadd]"
       newline_notMem := by decide
       kernel := true
       bracketed := by decide }]

/-- Of two processes and two threads it says three of each. -/
theorem countem_small :
    ¬CountsRight smallTable ∧
      countem smallTable = ⟨figures countemUthrds countemStacks 3 3 1 2 5, .error 0⟩ := by
  constructor
  · intro h
    exact counting_ne smallTable _ _ _ h.report
  · rw [countem_prints]
    · rfl
    · decide

end KernelTrg.ProcTable
