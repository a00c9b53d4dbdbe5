import KernelTrg.ProcTable.Countem

/-!
# The OOM scores of all processes

`query_process_oom.sh` asks `choom` about each process that `ps -A` has printed. By then a process
may have exited; `choom` fails then, and its status is that of an assignment in strict mode. So is
that of the pipeline which takes the score from the first of `choom`'s two lines, where `head` may
have left before `echo` writes the second.
-/

namespace KernelTrg.ProcTable

open Bytes Shell Strict

/-- A line of `ps -A`: three columns with blanks between them, and the process's name. -/
structure Process where
  pid : Nat
  pid_pos : 0 < pid
  tty : Column
  time : Column
  blanks : Nat × Nat × Nat
  comm : List UInt8
  newline_notMem : 10 ∉ comm

def Process.line (p : Process) : List UInt8 :=
  tableRow [(p.blanks.1, .ofNat p.pid), (p.blanks.2.1, p.tty), (p.blanks.2.2, p.time)] p.comm

/-- What the script meets: the processes that `ps` prints, which of them are still alive when
`choom` is asked, their scores, what `choom -p` prints and its status, for which of them `head` has
left the pipe before `echo` writes a second line, and the files of the current directory, with what
bracket expressions stand for in the locale. -/
structure Session where
  snapshot : List Process
  alive : Nat → Bool
  score : Nat → Nat
  choom : List UInt8 → List UInt8 × Nat
  headGone : List UInt8 → Bool
  files : List (List UInt8)
  inBracket : List UInt8 → UInt8 → Bool

def Session.split (s : Session) (text : List UInt8) : List (List UInt8) :=
  (words text).flatMap (expand s.inBracket s.files)

/-- The status of `echo "${text}"`, which writes line by line: behind the first one SIGPIPE ends it
if nobody reads any more. -/
def echoStatus (readerGone : Bool) (text : List UInt8) : Nat :=
  if readerGone ∧ 10 ∈ text then 141 else 0

def queryBody (s : Session) (i : Nat) (record : List UInt8) : Script Nat :=
  if i = 1 then pure (i + 1)
  else do
    let pid := awk 1 record
    let comm := awk 4 record
    let rec2 ← checked (s.choom pid).2 (substituted (s.choom pid).1)
    let oomScore ← checked (pipefail [echoStatus (s.headGone pid) rec2, 0, 0])
      (cut 58 2 (firstLine rec2))
    if isNumber pid && decimalValue pid ≠ 0 then
      let name := printf [.number 9, .text (ascii "  "), .string 28] (pid :: s.split comm)
      command name.1 name.2
      let score := printf [.text (ascii "   "), .number 6] (s.split oomScore)
      command score.1 score.2
    print (ascii "\n")
    pure (i + 1)

def queryProcessOom (s : Session) : Script Unit := do
  print (ascii "  PID                      Name         OOM Score\n")
  let _ ← (s.split (unlines (psHeader :: s.snapshot.map Process.line))).foldlM (queryBody s) 1
  exit 0

/-! ## What it should print -/

def oomRow (s : Session) (p : Process) : List UInt8 :=
  (decimal p.pid).leftpad 9 32 ++ (ascii "  " ++ ((awk 1 p.comm).leftpad 28 32 ++
    (ascii "   " ++ ((decimal (s.score p.pid)).leftpad 6 32 ++ ascii "\n"))))

/-- A row for each process of the snapshot that is alive, and the status 0. -/
def SurvivesRaces (s : Session) : Prop :=
  queryProcessOom s =
    ⟨ascii "  PID                      Name         OOM Score\n" ++
      (s.snapshot.filter fun p => s.alive p.pid).flatMap (oomRow s), .error 0⟩

/-- `choom -p` prints `pid 1's current OOM score: 0` and another line, and fails for a process that
has exited. -/
structure Session.Documented (s : Session) : Prop where
  alive : ∀ p ∈ s.snapshot, s.alive p.pid = true → ∃ front second, 58 ∉ front ∧ 10 ∉ front ∧
    second ≠ [] ∧ 10 ∉ second ∧ s.choom (decimal p.pid) =
      (unlines [front ++ 58 :: 32 :: decimal (s.score p.pid), second], 0)
  exited : ∀ p ∈ s.snapshot, s.alive p.pid = false → (s.choom (decimal p.pid)).2 ≠ 0

/-- No file of the current directory has a name that a record, a name or a score matches as a
pattern. -/
structure Session.Unmatched (s : Session) : Prop where
  header : expand s.inBracket s.files psHeader = [psHeader]
  record : ∀ p ∈ s.snapshot, expand s.inBracket s.files p.line = [p.line]
  comm : ∀ p ∈ s.snapshot, expand s.inBracket s.files (awk 1 p.comm) = [awk 1 p.comm]
  score : ∀ p ∈ s.snapshot, expand s.inBracket s.files (32 :: decimal (s.score p.pid)) =
    [32 :: decimal (s.score p.pid)]

variable {s : Session} {p : Process} {i : Nat}

theorem Process.line_ne_nil (p : Process) : p.line ≠ [] := by
  unfold Process.line tableRow
  simp

theorem Process.newline_notMem_line (p : Process) : 10 ∉ p.line :=
  newline_notMem_tableRow p.newline_notMem

theorem Process.awk_pid (p : Process) : awk 1 p.line = decimal p.pid := by
  unfold awk Process.line
  rw [awkFields_tableRow]
  rfl

theorem Process.awk_comm (p : Process) : awk 4 p.line = awk 1 p.comm := by
  unfold awk Process.line
  rw [awkFields_tableRow]
  rfl

theorem split_word {word : List UInt8} (hfiles : expand s.inBracket s.files word = [word])
    (hnewline : 10 ∉ word) : s.split word = if word = [] then [] else [word] := by
  unfold Session.split
  by_cases hnil : word = []
  · rw [if_pos hnil, hnil]
    rfl
  · rw [if_neg hnil, words_of_notMem hnewline hnil, List.flatMap_singleton, hfiles]

theorem Process.newline_notMem_comm (p : Process) : 10 ∉ awk 1 p.comm :=
  fun h => p.newline_notMem (mem_of_mem_awk h (by decide))

theorem substituted_two {first second : List UInt8} (hne : second ≠ []) (hnewline : 10 ∉ second) :
    substituted (unlines [first, second]) = first ++ 10 :: second := by
  have hlines : unlines [first, second] = (first ++ 10 :: second) ++ [10] := by
    simp [unlines]
  have hself : (first ++ 10 :: second).rdropWhile (· = 10) = first ++ 10 :: second := by
    rw [List.rdropWhile_eq_self_iff]
    intro _ hlast
    rw [List.getLast_append_of_ne_nil _ (List.cons_ne_nil _ _), List.getLast_cons hne,
      decide_eq_true_eq] at hlast
    exact hnewline (hlast ▸ List.getLast_mem hne)
  rw [hlines, substituted, List.rdropWhile_concat_pos _ _ _ (by decide), hself]

theorem cut_firstLine {front second : List UInt8} (hcolon : 58 ∉ front) (hnewline : 10 ∉ front)
    (n : Nat) :
    cut 58 2 (firstLine ((front ++ 58 :: 32 :: decimal n) ++ 10 :: second)) = 32 :: decimal n := by
  have hdigits : ∀ c ∈ decimal n, c ≠ 10 ∧ c ≠ 58 := by
    intro c hc
    have hbounds := mem_decimal hc
    constructor
    · intro h
      subst h
      exact absurd hbounds.1 (by decide)
    · intro h
      subst h
      exact absurd hbounds.2 (by decide)
  have hline : 10 ∉ front ++ 58 :: 32 :: decimal n := by
    simp only [List.mem_append, List.mem_cons, not_or]
    exact ⟨hnewline, by decide, by decide, fun h => (hdigits 10 h).1 rfl⟩
  rw [firstLine_append hline, cut_second hcolon]
  apply takeWhile_of_notMem
  simp only [List.mem_cons, not_or]
  exact ⟨by decide, fun h => (hdigits 58 h).2 rfl⟩

theorem printf_name (n : Nat) (word : List UInt8) :
    printf [.number 9, .text (ascii "  "), .string 28]
        (decimal n :: if word = [] then [] else [word]) =
      ((decimal n).leftpad 9 32 ++ (ascii "  " ++ word.leftpad 28 32), 0) := by
  have hnumber := isNumber_decimal n
  by_cases hnil : word = []
  · simp [hnil, printf, printfAgain, printfOnce, hnumber]
  · simp [hnil, printf, printfAgain, printfOnce, hnumber]

theorem printf_score (n : Nat) :
    printf [.text (ascii "   "), .number 6] [32 :: decimal n] =
      (ascii "   " ++ (decimal n).leftpad 6 32, 0) := by
  have hnumber := isNumber_padded 1 n
  rw [List.replicate_one, List.singleton_append] at hnumber
  simp [printf, printfAgain, printfOnce, hnumber]

/-- A turn about a process that is alive prints its row, if the pipeline does not fail. -/
theorem queryBody_alive (hdoc : s.Documented) (hfiles : s.Unmatched) (hp : p ∈ s.snapshot)
    (halive : s.alive p.pid = true) (hread : s.headGone (decimal p.pid) = false) (hi : 1 < i) :
    queryBody s i p.line = ⟨oomRow s p, .ok (i + 1)⟩ := by
  rcases hdoc.alive p hp halive with ⟨front, second, hcolon, hnewline, hne, hnewline', hchoom⟩
  have hdigits : 10 ∉ 32 :: decimal (s.score p.pid) := by
    have hdecimal : 10 ∉ decimal (s.score p.pid) := (Column.ofNat (s.score p.pid)).newline_notMem
    simp [hdecimal]
  have hscore : s.split (32 :: decimal (s.score p.pid)) = [32 :: decimal (s.score p.pid)] :=
    split_word (hfiles.score p hp) hdigits
  have hcomm := split_word (hfiles.comm p hp) p.newline_notMem_comm
  have hpid : (isNumber (decimal p.pid) && decimalValue (decimal p.pid) ≠ 0) = true := by
    have hpos := p.pid_pos
    rw [(isNumber_decimal p.pid).1, decimalValue_decimal]
    simp
    omega
  have hpipe : ∀ text, pipefail [echoStatus false text, 0, 0] = 0 := fun _ => rfl
  unfold queryBody
  simp only [if_neg (show i ≠ 1 by omega), p.awk_pid, p.awk_comm, hchoom, checked_zero_bind,
    substituted_two hne hnewline', hread, hpipe, cut_firstLine hcolon hnewline, hscore, hcomm, hpid,
    if_true, printf_name, printf_score, command_zero, print_bind, pure_eq]
  simp [oomRow]

/-- The process has not exited, and its score is read to the end of `choom`'s output. -/
def Undisturbed (s : Session) (p : Process) : Prop :=
  s.alive p.pid = true ∧ s.headGone (decimal p.pid) = false

instance : Decidable (Undisturbed s p) := by
  unfold Undisturbed
  infer_instance

/-- A turn about any other process ends the script: with the status of `choom`, or that of a pipe
without a reader. -/
theorem queryBody_disturbed (hdoc : s.Documented) (hp : p ∈ s.snapshot)
    (hnot : ¬Undisturbed s p) :
    ∃ status ≠ 0, ∀ i, 1 < i → queryBody s i p.line = ⟨[], .error status⟩ := by
  cases halive : s.alive p.pid with
  | false =>
      have hstatus := hdoc.exited p hp halive
      refine ⟨_, hstatus, fun i hi => ?_⟩
      unfold queryBody
      rw [if_neg (by omega), p.awk_pid]
      simp only [checked_of_ne hstatus, exit_bind]
      rfl
  | true =>
      have hgone : s.headGone (decimal p.pid) = true := by
        by_contra hread
        exact hnot ⟨halive, Bool.eq_false_of_not_eq_true hread⟩
      rcases hdoc.alive p hp halive with ⟨front, second, -, -, hne, hnewline, hchoom⟩
      have hpipe : ∀ first, pipefail [echoStatus true (first ++ 10 :: second), 0, 0] = 141 := by
        intro first
        simp [echoStatus, pipefail]
      refine ⟨141, by decide, fun i hi => ?_⟩
      unfold queryBody
      rw [if_neg (by omega), p.awk_pid]
      simp only [hchoom, checked_zero_bind, substituted_two hne hnewline, hgone, hpipe,
        checked_of_ne (show 141 ≠ 0 by decide), exit_bind]
      rfl

theorem Session.Unmatched.split_ps (h : s.Unmatched) :
    s.split (unlines (psHeader :: s.snapshot.map Process.line)) =
      psHeader :: s.snapshot.map Process.line := by
  have hline : ∀ line ∈ psHeader :: s.snapshot.map Process.line,
      (10 ∉ line ∧ line ≠ []) ∧ expand s.inBracket s.files line = [line] := by
    intro line hmem
    rcases List.mem_cons.mp hmem with rfl | hmem
    · exact ⟨⟨newline_notMem_psHeader, by decide⟩, h.header⟩
    · rcases List.mem_map.mp hmem with ⟨p, hp, rfl⟩
      exact ⟨⟨p.newline_notMem_line, p.line_ne_nil⟩, h.record p hp⟩
  unfold Session.split
  rw [words_unlines fun line hmem => (hline line hmem).1,
    List.flatMap_congr fun line hmem => (hline line hmem).2, List.flatMap_singleton']

/-- The loop skips the header and takes up the processes with its counter at 2. -/
theorem queryProcessOom_eq (hfiles : s.Unmatched) :
    queryProcessOom s = (do
      print (ascii "  PID                      Name         OOM Score\n")
      let _ ← s.snapshot.foldlM (fun i p => queryBody s i p.line) 2
      exit 0) := by
  have hheader : queryBody s 1 psHeader = pure 2 := by
    unfold queryBody
    rw [if_pos rfl]
  unfold queryProcessOom
  rw [hfiles.split_ps, List.foldlM_cons, hheader, pure_bind, List.foldlM_map]

theorem loop_undisturbed (hdoc : s.Documented) (hfiles : s.Unmatched) {ps : List Process}
    (hps : ∀ p ∈ ps, p ∈ s.snapshot ∧ Undisturbed s p) :
    ∃ i, 1 < i ∧
      ps.foldlM (fun i p => queryBody s i p.line) 2 = ⟨ps.flatMap (oomRow s), .ok i⟩ := by
  apply foldlM_ok
  · intro i p hi hp
    obtain ⟨hmem, halive, hread⟩ := hps p hp
    exact ⟨i + 1, by omega, queryBody_alive hdoc hfiles hmem halive hread hi⟩
  · decide

theorem not_survivesRaces (hdoc : s.Documented) (hfiles : s.Unmatched) (hp : p ∈ s.snapshot)
    (hnot : ¬Undisturbed s p) : ¬SurvivesRaces s := by
  intro hrun
  unfold SurvivesRaces at hrun
  rw [queryProcessOom_eq hfiles] at hrun
  have hfind : (s.snapshot.find? fun p => ¬Undisturbed s p).isSome := by
    simpa using ⟨p, hp, hnot⟩
  rcases Option.isSome_iff_exists.mp hfind with ⟨first, hfirst⟩
  rw [List.find?_eq_some_iff_append] at hfirst
  rcases hfirst with ⟨hdisturbed, front, back, hsplit, hfront⟩
  have hmem : first ∈ s.snapshot := by simp [hsplit]
  obtain ⟨status, hstatus, hturn⟩ := queryBody_disturbed hdoc hmem (of_decide_eq_true hdisturbed)
  have hloop : s.snapshot.foldlM (fun i p => queryBody s i p.line) 2 =
      ⟨front.flatMap (oomRow s) ++ [], .error status⟩ := by
    rw [hsplit]
    apply foldlM_error (I := fun i => 1 < i)
    · intro i q hi hq
      have hqmem : q ∈ s.snapshot := by simp [hsplit, hq]
      have hq' : Undisturbed s q := by simpa using hfront q hq
      exact ⟨i + 1, by omega, queryBody_alive hdoc hfiles hqmem hq'.1 hq'.2 hi⟩
    · exact hturn
    · decide
  rw [hloop, mk_error_bind, print_bind, Script.mk.injEq, Except.error.injEq] at hrun
  exact hstatus hrun.2

theorem survivesRaces_of_undisturbed (hdoc : s.Documented) (hfiles : s.Unmatched)
    (hall : ∀ p ∈ s.snapshot, Undisturbed s p) : SurvivesRaces s := by
  rcases loop_undisturbed hdoc hfiles (fun p hp => ⟨hp, hall p hp⟩) with ⟨i, -, hloop⟩
  have hfilter : (s.snapshot.filter fun p => s.alive p.pid) = s.snapshot :=
    List.filter_eq_self.mpr fun p hp => (hall p hp).1
  unfold SurvivesRaces
  rw [queryProcessOom_eq hfiles, hloop, hfilter, mk_ok_bind, print_bind]
  simp [exit]

/-- The script survives exactly where it has nothing to survive: each process of the snapshot is
still alive when it is asked about, and each score is read before `head` has gone. -/
theorem survivesRaces_iff (hdoc : s.Documented) (hfiles : s.Unmatched) :
    SurvivesRaces s ↔
      ∀ p ∈ s.snapshot, s.alive p.pid = true ∧ s.headGone (decimal p.pid) = false := by
  constructor
  · intro hrun p hp
    by_contra hnot
    exact not_survivesRaces hdoc hfiles hp hnot hrun
  · exact survivesRaces_of_undisturbed hdoc hfiles

def systemd : Process where
  pid := 1
  pid_pos := by decide
  tty := ⟨ascii "?", by decide, by decide, by decide, by decide⟩
  time := ⟨ascii "00:00:03", by decide, by decide, by decide, by decide⟩
  blanks := (6, 0, 7)
  comm := ascii "systemd"
  newline_notMem := by decide

/-- The `ps` that prints the table is in it, and has exited when the loop starts. -/
def ps : Process where
  pid := 4711
  pid_pos := by decide
  tty := ⟨ascii "pts/0", by decide, by decide, by decide, by decide⟩
  time := ⟨ascii "00:00:00", by decide, by decide, by decide, by decide⟩
  blanks := (3, 0, 3)
  comm := ascii "ps"
  newline_notMem := by decide

def sampleSession (snapshot : List Process) : Session where
  snapshot := snapshot
  alive pid := pid = 1
  score _ := 0
  choom pid :=
    if pid = decimal 1 then
      (unlines [ascii "pid 1's current OOM score" ++ 58 :: 32 :: decimal 0,
        ascii "pid 1's current OOM score adjust value: 0"], 0)
    else ([], 1)
  headGone _ := false
  files := []
  inBracket _ _ := false

theorem sampleSession_documented (snapshot : List Process) :
    (sampleSession snapshot).Documented where
  alive := by
    intro p _ halive
    have hpid : p.pid = 1 := of_decide_eq_true halive
    exact ⟨ascii "pid 1's current OOM score", ascii "pid 1's current OOM score adjust value: 0",
      by decide, by decide, by decide, by decide, if_pos (congrArg decimal hpid)⟩
  exited := by
    intro p _ hexited
    have hpid : p.pid ≠ 1 := of_decide_eq_false hexited
    have hchoom : (sampleSession snapshot).choom (decimal p.pid) = ([], 1) :=
      if_neg fun h => hpid (decimal_inj h)
    rw [hchoom]
    decide

theorem sampleSession_unmatched (snapshot : List Process) :
    (sampleSession snapshot).Unmatched where
  header := rfl
  record _ _ := rfl
  comm _ _ := rfl
  score _ _ := rfl

/-- One process, which is alive. -/
theorem survivesRaces_iff_systemd :
    SurvivesRaces (sampleSession [systemd]) :=
  (survivesRaces_iff (sampleSession_documented [systemd])
    (sampleSession_unmatched [systemd])).mpr (by
      intro p hp
      rw [List.mem_singleton.mp hp]
      exact ⟨rfl, rfl⟩)

/-- The process that took the snapshot is enough to end the script. -/
theorem queryProcessOom_ps :
    (sampleSession [systemd, ps]).Documented ∧ (sampleSession [systemd, ps]).Unmatched ∧
      ¬SurvivesRaces (sampleSession [systemd, ps]) := by
  have hdoc := sampleSession_documented [systemd, ps]
  have hfiles := sampleSession_unmatched [systemd, ps]
  exact ⟨hdoc, hfiles, not_survivesRaces (p := ps) hdoc hfiles (by simp [sampleSession])
    fun h => absurd h.1 (by decide)⟩

end KernelTrg.ProcTable
