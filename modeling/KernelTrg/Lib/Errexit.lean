import Mathlib.Data.List.Basic

/-!
# Commands under `set -e`

Commands of a shell over simple ones. Under `set -e` a shell ends at a failure, except where the
command around it tests the status; a failure inside a subshell ends the subshell, whose own status
is then looked at. The log keeps each simple command with its status and with whether a failure
there is one that nothing in the script tests.
-/

namespace KernelTrg.Errexit

structure Options where
  errexit : Bool
  pipefail : Bool

/-- A command over simple commands `κ`. -/
inductive Cmd (κ : Type) where
  | run (command : κ)
  | set (change : Options → Options)
  | exit (status : Nat)
  | seq (first second : Cmd κ)
  | and (first second : Cmd κ)
  | or (first second : Cmd κ)
  | ite (test yes no : Cmd κ)
  /-- a function -/
  | call (body : Cmd κ)
  | sub (body : Cmd κ)
  | pipe (first second : Cmd κ)

/-- Who looks at the status of a command: the script ends at a failure, only a subshell does whose
status nobody looks at, or the script tests it. -/
inductive Context where
  | checked
  | apart
  | tested
  deriving DecidableEq

structure Event (κ ρ : Type) where
  command : κ
  vars : ρ
  status : Nat
  checked : Bool

/-- What the processes share: the log, and all else. -/
structure World (κ ρ ω : Type) where
  log : List (Event κ ρ)
  rest : ω

structure Shell (κ ρ ω : Type) where
  options : Options
  vars : ρ
  world : World κ ρ ω

/-- A command goes on to the next one, or it ends the shell. -/
inductive Outcome (κ ρ ω : Type) where
  | done (status : Nat) (shell : Shell κ ρ ω)
  | exited (status : Nat) (world : World κ ρ ω)

variable {κ ρ ω : Type}

def Outcome.status : Outcome κ ρ ω → Nat
  | .done status _ => status
  | .exited status _ => status

def Outcome.world : Outcome κ ρ ω → World κ ρ ω
  | .done _ s => s.world
  | .exited _ w => w

def Outcome.andThen (o : Outcome κ ρ ω) (next : Nat → Shell κ ρ ω → Option (Outcome κ ρ ω)) :
    Option (Outcome κ ρ ω) :=
  match o with
  | .done status s => next status s
  | .exited status w => some (.exited status w)

/-- The context inside a subshell. -/
def Context.inner (ctx : Context) (looked : Bool) : Context :=
  if ctx = .checked ∧ looked = false then .apart else ctx

/-- What the status of a command does to the shell. -/
def settle (ctx : Context) (status : Nat) (s : Shell κ ρ ω) : Outcome κ ρ ω :=
  if status ≠ 0 ∧ s.options.errexit = true ∧ ctx ≠ .tested then .exited status s.world
  else .done status s

def pipeStatus (options : Options) (first second : Nat) : Nat :=
  if second = 0 ∧ options.pipefail = true then first else second

/-- How a simple command runs: its status, and what it makes of the variables and of the rest of
the world. `none` where it does not return. -/
abbrev Act (κ ρ ω : Type) := κ → ρ → World κ ρ ω → Option (Nat × ρ × ω)

/-- A command in a shell. The parts of a pipeline run one behind the other. -/
def exec (act : Act κ ρ ω) : Context → Cmd κ → Shell κ ρ ω → Option (Outcome κ ρ ω)
  | ctx, .run k, s =>
      (act k s.vars s.world).map fun r =>
        let event : Event κ ρ := ⟨k, s.vars, r.1, ctx = .checked ∧ s.options.errexit = true⟩
        settle ctx r.1 ⟨s.options, r.2.1, ⟨s.world.log ++ [event], r.2.2⟩⟩
  | _, .set change, s => some (.done 0 { s with options := change s.options })
  | _, .exit status, s => some (.exited status s.world)
  | ctx, .seq c d, s => (exec act ctx c s).bind fun o => o.andThen fun _ => exec act ctx d
  | ctx, .and c d, s =>
      (exec act .tested c s).bind fun o => o.andThen fun n t =>
        if n = 0 then exec act ctx d t else some (.done n t)
  | ctx, .or c d, s =>
      (exec act .tested c s).bind fun o => o.andThen fun n t =>
        if n = 0 then some (.done n t) else exec act ctx d t
  | ctx, .ite test yes no, s =>
      (exec act .tested test s).bind fun o => o.andThen fun n t =>
        if n = 0 then exec act ctx yes t else exec act ctx no t
  | ctx, .call body, s =>
      (exec act ctx body s).bind fun o => o.andThen fun n t => some (settle ctx n t)
  | ctx, .sub body, s =>
      (exec act (ctx.inner s.options.errexit) body s).map fun o =>
        settle ctx o.status { s with world := o.world }
  | ctx, .pipe c d, s =>
      (exec act (ctx.inner (s.options.errexit && s.options.pipefail)) c s).bind fun o =>
        (exec act (ctx.inner s.options.errexit) d { s with world := o.world }).map fun o' =>
          settle ctx (pipeStatus s.options o.status o'.status) { s with world := o'.world }

def Cmd.steps : List (Cmd κ) → Cmd κ
  | [] => .set id
  | [c] => c
  | c :: cs => .seq c (steps cs)

def Cmd.commands : Cmd κ → List κ
  | .run k => [k]
  | .set _ => []
  | .exit _ => []
  | .seq c d => c.commands ++ d.commands
  | .and c d => c.commands ++ d.commands
  | .or c d => c.commands ++ d.commands
  | .ite test yes no => test.commands ++ (yes.commands ++ no.commands)
  | .call body => body.commands
  | .sub body => body.commands
  | .pipe c d => c.commands ++ d.commands

/-- The statuses that a script names in its `exit` commands. -/
def Cmd.exits : Cmd κ → List Nat
  | .run _ => []
  | .set _ => []
  | .exit status => [status]
  | .seq c d => c.exits ++ d.exits
  | .and c d => c.exits ++ d.exits
  | .or c d => c.exits ++ d.exits
  | .ite test yes no => test.exits ++ (yes.exits ++ no.exits)
  | .call body => body.exits
  | .sub _ => []
  | .pipe _ _ => []

variable {act : Act κ ρ ω} {ctx : Context} {c d body test yes no : Cmd κ} {s t : Shell κ ρ ω}
  {o : Outcome κ ρ ω} {w w' w'' : World κ ρ ω} {n : Nat}

/-! ## One command -/

theorem bind_andThen {x : Option (Outcome κ ρ ω)}
    {next : Nat → Shell κ ρ ω → Option (Outcome κ ρ ω)}
    (h : (x.bind fun o => o.andThen next) = some o) :
    (∃ n w, x = some (.exited n w) ∧ o = .exited n w) ∨
      ∃ n t, x = some (.done n t) ∧ next n t = some o := by
  cases x with
  | none => cases h
  | some first =>
      cases first with
      | done n t => exact .inr ⟨n, t, rfl, h⟩
      | exited n w => exact .inl ⟨n, w, rfl, (Option.some.inj h).symm⟩

@[simp] theorem settle_status (ctx : Context) (n : Nat) (s : Shell κ ρ ω) :
    (settle ctx n s).status = n := by
  unfold settle
  split <;> rfl

@[simp] theorem settle_world (ctx : Context) (n : Nat) (s : Shell κ ρ ω) :
    (settle ctx n s).world = s.world := by
  unfold settle
  split <;> rfl

@[simp] theorem settle_zero (ctx : Context) (s : Shell κ ρ ω) : settle ctx 0 s = .done 0 s :=
  if_neg fun h => h.1 rfl

@[simp] theorem settle_tested (n : Nat) (s : Shell κ ρ ω) : settle .tested n s = .done n s :=
  if_neg fun h => h.2.2 rfl

theorem settle_checked (herr : s.options.errexit = true) (hn : n ≠ 0) :
    settle .checked n s = .exited n s.world :=
  if_pos ⟨hn, herr, nofun⟩

theorem settle_exited {m : Nat} (h : settle ctx m s = .exited n w) : n ≠ 0 := by
  have hm : m = n := (settle_status ctx m s).symm.trans (congrArg Outcome.status h)
  intro hn
  rw [hm, hn, settle_zero] at h
  cases h

theorem inner_eq_checked {looked : Bool} :
    ctx.inner looked = .checked ↔ ctx = .checked ∧ looked = true := by
  unfold Context.inner
  cases looked <;> cases ctx <;> decide

/-! ## The log -/

def Grows (ok : Event κ ρ → Prop) (w w' : World κ ρ ω) : Prop :=
  ∃ events, w'.log = w.log ++ events ∧ ∀ e ∈ events, ok e

variable {ok : Event κ ρ → Prop}

theorem Grows.refl (ok : Event κ ρ → Prop) (w : World κ ρ ω) : Grows ok w w :=
  ⟨[], (List.append_nil _).symm, nofun⟩

theorem Grows.trans (h : Grows ok w w') (h' : Grows ok w' w'') : Grows ok w w'' := by
  rcases h with ⟨events, hlog, hok⟩
  rcases h' with ⟨later, hlog', hok'⟩
  refine ⟨events ++ later, by rw [hlog', hlog, List.append_assoc], ?_⟩
  intro e he
  rcases List.mem_append.mp he with he | he
  · exact hok e he
  · exact hok' e he

theorem Grows.mono {ok' : Event κ ρ → Prop} (hok : ∀ e, ok e → ok' e) (h : Grows ok w w') :
    Grows ok' w w' := by
  rcases h with ⟨events, hlog, hevents⟩
  exact ⟨events, hlog, fun e he => hok e (hevents e he)⟩

theorem Grows.log_of_mem {e : Event κ ρ} (h : Grows ok w w') (he : e ∈ w'.log) :
    e ∈ w.log ∨ ok e := by
  rcases h with ⟨events, hlog, hok⟩
  rw [hlog] at he
  exact (List.mem_append.mp he).imp_right (hok e)

/-- The events that a run of a command may add to the log: each one a run of a simple command of
its own, and none that is checked unless the command is. -/
def Permits (act : Act κ ρ ω) (ctx : Context) (c : Cmd κ) (ok : Event κ ρ → Prop) : Prop :=
  ∀ k ∈ c.commands, ∀ vars w n vars' rest, act k vars w = some (n, vars', rest) →
    ∀ b, (b = true → ctx = .checked) → ok ⟨k, vars, n, b⟩

theorem Permits.mono {ctx' : Context} (h : Permits act ctx c ok)
    (hcmd : ∀ k ∈ d.commands, k ∈ c.commands) (hctx : ctx' = .checked → ctx = .checked) :
    Permits act ctx' d ok :=
  fun k hk vars w n vars' rest hact b hb => h k (hcmd k hk) vars w n vars' rest hact b
    fun hchecked => hctx (hb hchecked)

theorem exec_grows (hok : Permits act ctx c ok) (h : exec act ctx c s = some o) :
    Grows ok s.world o.world := by
  induction c generalizing ctx s o with
  | run k =>
      rw [exec, Option.map_eq_some_iff] at h
      rcases h with ⟨r, hact, rfl⟩
      rw [settle_world]
      refine ⟨_, rfl, ?_⟩
      intro e he
      rw [List.mem_singleton.mp he]
      exact hok k List.mem_cons_self _ _ _ _ _ hact _ fun hchecked =>
        (of_decide_eq_true hchecked).1
  | set change =>
      rw [← Option.some.inj h]
      exact Grows.refl ok _
  | exit status =>
      rw [← Option.some.inj h]
      exact Grows.refl ok _
  | seq c d ihc ihd =>
      have hc := hok.mono (fun k hk => List.mem_append_left _ hk) id
      have hd := hok.mono (fun k hk => List.mem_append_right _ hk) id
      rcases bind_andThen h with ⟨n, w, hfirst, rfl⟩ | ⟨n, t, hfirst, hrest⟩
      · exact ihc hc hfirst
      · exact (ihc hc hfirst).trans (ihd hd hrest)
  | and c d ihc ihd =>
      have hc : Permits act .tested c ok := hok.mono (fun k hk => List.mem_append_left _ hk) nofun
      have hd := hok.mono (fun k hk => List.mem_append_right _ hk) id
      rcases bind_andThen h with ⟨n, w, hfirst, rfl⟩ | ⟨n, t, hfirst, hrest⟩
      · exact ihc hc hfirst
      · split at hrest
        · exact (ihc hc hfirst).trans (ihd hd hrest)
        · rw [← Option.some.inj hrest]
          exact ihc hc hfirst
  | or c d ihc ihd =>
      have hc : Permits act .tested c ok := hok.mono (fun k hk => List.mem_append_left _ hk) nofun
      have hd := hok.mono (fun k hk => List.mem_append_right _ hk) id
      rcases bind_andThen h with ⟨n, w, hfirst, rfl⟩ | ⟨n, t, hfirst, hrest⟩
      · exact ihc hc hfirst
      · split at hrest
        · rw [← Option.some.inj hrest]
          exact ihc hc hfirst
        · exact (ihc hc hfirst).trans (ihd hd hrest)
  | ite test yes no iht ihy ihn =>
      have ht : Permits act .tested test ok :=
        hok.mono (fun k hk => List.mem_append_left _ hk) nofun
      have hy := hok.mono (fun k hk => List.mem_append_right _ (List.mem_append_left _ hk)) id
      have hn := hok.mono (fun k hk => List.mem_append_right _ (List.mem_append_right _ hk)) id
      rcases bind_andThen h with ⟨n, w, hfirst, rfl⟩ | ⟨n, t, hfirst, hrest⟩
      · exact iht ht hfirst
      · split at hrest
        · exact (iht ht hfirst).trans (ihy hy hrest)
        · exact (iht ht hfirst).trans (ihn hn hrest)
  | call body ih =>
      rcases bind_andThen h with ⟨n, w, hbody, rfl⟩ | ⟨n, t, hbody, hsettle⟩
      · exact ih hok hbody
      · rw [← Option.some.inj hsettle, settle_world]
        exact ih hok hbody
  | sub body ih =>
      rw [exec, Option.map_eq_some_iff] at h
      rcases h with ⟨inside, hbody, rfl⟩
      rw [settle_world]
      exact ih (hok.mono (fun _ hk => hk) fun hinner => (inner_eq_checked.mp hinner).1) hbody
  | pipe c d ihc ihd =>
      rw [exec, Option.bind_eq_some_iff] at h
      rcases h with ⟨first, hfirst, h⟩
      rw [Option.map_eq_some_iff] at h
      rcases h with ⟨second, hsecond, rfl⟩
      have hgrows : Grows ok s.world first.world :=
        ihc (hok.mono (fun k hk => List.mem_append_left _ hk)
          fun hinner => (inner_eq_checked.mp hinner).1) hfirst
      have hgrows' : Grows ok first.world second.world :=
        ihd (hok.mono (fun k hk => List.mem_append_right _ hk)
          fun hinner => (inner_eq_checked.mp hinner).1) hsecond
      rw [settle_world]
      exact hgrows.trans hgrows'

theorem exec_commands (h : exec act ctx c s = some o) :
    Grows (fun e : Event κ ρ => e.command ∈ c.commands) s.world o.world :=
  exec_grows (fun _ hk _ _ _ _ _ _ _ _ => hk) h

/-! ## Failures -/

/-- A command failed where nothing tests its status. -/
def Failed (w : World κ ρ ω) : Prop := ∃ e ∈ w.log, e.checked = true ∧ e.status ≠ 0

theorem not_failed_of_grows (hs : ¬Failed w)
    (h : Grows (fun e : Event κ ρ => e.checked = false) w w') : ¬Failed w' := by
  intro hfailed
  rcases hfailed with ⟨e, he, hchecked, hne⟩
  rcases h.log_of_mem he with hold | hnew
  · exact hs ⟨e, hold, hchecked, hne⟩
  · rw [hnew] at hchecked
    cases hchecked

theorem exec_not_failed (hctx : ctx ≠ .checked) (hs : ¬Failed s.world)
    (h : exec act ctx c s = some o) : ¬Failed o.world :=
  not_failed_of_grows hs (exec_grows (fun _ _ _ _ _ _ _ _ _ hchecked =>
    Bool.eq_false_iff.mpr fun hc => hctx (hchecked hc)) h)

theorem tested_not_failed (hs : ¬Failed s.world)
    (h : exec act .tested c s = some (.done n t)) : ¬Failed t.world :=
  exec_not_failed (o := .done n t) (by decide) hs h

theorem exec_inner_failed {looked : Bool} (hs : ¬Failed s.world)
    (h : exec act (ctx.inner looked) c s = some o) (hfailed : Failed o.world) :
    ctx = .checked ∧ looked = true := by
  by_contra hctx
  exact exec_not_failed (fun hinner => hctx (inner_eq_checked.mp hinner)) hs h hfailed

theorem pipeStatus_ne_zero {options : Options} {m : Nat} (h : m ≠ 0 ∨ n ≠ 0 ∧ options.pipefail = true) :
    pipeStatus options n m ≠ 0 := by
  unfold pipeStatus
  split
  case isTrue hzero =>
      rcases h with hm | hn
      · exact absurd hzero.1 hm
      · exact hn.1
  case isFalse hzero =>
      intro hm
      rcases h with hm' | hn
      · exact hm' hm
      · exact hzero ⟨hm, hn.2⟩

/-- A command that goes on has no failure behind it that nothing tests; one that ends the shell
at such a failure ends it with a status other than 0. -/
theorem exec_failed (hs : ¬Failed s.world) (h : exec act ctx c s = some o)
    (hfailed : Failed o.world) : ∃ n w, o = .exited n w ∧ n ≠ 0 := by
  induction c generalizing ctx s o with
  | run k =>
      rw [exec, Option.map_eq_some_iff] at h
      rcases h with ⟨r, _, rfl⟩
      rcases hfailed with ⟨e, he, hchecked, hne⟩
      rw [settle_world] at he
      rcases List.mem_append.mp he with hold | hnew
      · exact absurd ⟨e, hold, hchecked, hne⟩ hs
      · rw [List.mem_singleton.mp hnew] at hchecked hne
        have hends := of_decide_eq_true hchecked
        rw [hends.1]
        exact ⟨_, _, settle_checked hends.2 hne, hne⟩
  | set change =>
      rw [← Option.some.inj h] at hfailed
      exact absurd hfailed hs
  | exit status =>
      rw [← Option.some.inj h] at hfailed
      exact absurd hfailed hs
  | seq c d ihc ihd =>
      rcases bind_andThen h with ⟨n, w, hfirst, rfl⟩ | ⟨n, t, hfirst, hrest⟩
      · exact ihc hs hfirst hfailed
      · have ht : ¬Failed t.world := fun hbad => by
          rcases ihc hs hfirst hbad with ⟨_, _, he, _⟩
          cases he
        exact ihd ht hrest hfailed
  | and c d ihc ihd =>
      rcases bind_andThen h with ⟨n, w, hfirst, rfl⟩ | ⟨n, t, hfirst, hrest⟩
      · exact ihc hs hfirst hfailed
      · have ht : ¬Failed t.world := tested_not_failed hs hfirst
        split at hrest
        · exact ihd ht hrest hfailed
        · rw [← Option.some.inj hrest] at hfailed
          exact absurd hfailed ht
  | or c d ihc ihd =>
      rcases bind_andThen h with ⟨n, w, hfirst, rfl⟩ | ⟨n, t, hfirst, hrest⟩
      · exact ihc hs hfirst hfailed
      · have ht : ¬Failed t.world := tested_not_failed hs hfirst
        split at hrest
        · rw [← Option.some.inj hrest] at hfailed
          exact absurd hfailed ht
        · exact ihd ht hrest hfailed
  | ite test yes no iht ihy ihn =>
      rcases bind_andThen h with ⟨n, w, hfirst, rfl⟩ | ⟨n, t, hfirst, hrest⟩
      · exact iht hs hfirst hfailed
      · have ht : ¬Failed t.world := tested_not_failed hs hfirst
        split at hrest
        · exact ihy ht hrest hfailed
        · exact ihn ht hrest hfailed
  | call body ih =>
      rcases bind_andThen h with ⟨n, w, hbody, rfl⟩ | ⟨n, t, hbody, hsettle⟩
      · exact ih hs hbody hfailed
      · rw [← Option.some.inj hsettle, settle_world] at hfailed
        rcases ih hs hbody hfailed with ⟨_, _, he, _⟩
        cases he
  | sub body ih =>
      rw [exec, Option.map_eq_some_iff] at h
      rcases h with ⟨inside, hbody, rfl⟩
      rw [settle_world] at hfailed
      rcases ih hs hbody hfailed with ⟨n, w, rfl, hn⟩
      rcases exec_inner_failed hs hbody hfailed with ⟨rfl, herr⟩
      exact ⟨n, _, settle_checked herr hn, hn⟩
  | pipe c d ihc ihd =>
      rw [exec, Option.bind_eq_some_iff] at h
      rcases h with ⟨first, hfirst, h⟩
      rw [Option.map_eq_some_iff] at h
      rcases h with ⟨second, hsecond, rfl⟩
      rw [settle_world] at hfailed
      by_cases hearly : Failed first.world
      · rcases ihc hs hfirst hearly with ⟨n, w, rfl, hn⟩
        rcases exec_inner_failed hs hfirst hearly with ⟨rfl, hlooked⟩
        rcases Bool.and_eq_true_iff.mp hlooked with ⟨herr, hpipe⟩
        have hstatus : pipeStatus s.options n second.status ≠ 0 :=
          pipeStatus_ne_zero (.inr ⟨hn, hpipe⟩)
        exact ⟨_, _, settle_checked herr hstatus, hstatus⟩
      · rcases ihd hearly hsecond hfailed with ⟨n, w, rfl, hn⟩
        rcases exec_inner_failed (s := { s with world := first.world }) hearly hsecond hfailed
          with ⟨rfl, herr⟩
        have hstatus : pipeStatus s.options first.status n ≠ 0 := pipeStatus_ne_zero (.inl hn)
        exact ⟨_, _, settle_checked herr hstatus, hstatus⟩

/-- A shell that a failure ends, or an `exit` that names one, ends with a status other than 0. -/
theorem exec_exited (hexits : 0 ∉ c.exits) (h : exec act ctx c s = some (.exited n w)) : n ≠ 0 := by
  induction c generalizing ctx s with
  | run k =>
      rw [exec, Option.map_eq_some_iff] at h
      rcases h with ⟨r, _, hsettle⟩
      exact settle_exited hsettle
  | set change => cases h
  | exit status =>
      cases h
      exact fun hn => hexits (List.mem_singleton.mpr hn.symm)
  | seq c d ihc ihd =>
      rcases not_or.mp (fun hmem => hexits (List.mem_append.mpr hmem)) with ⟨hc, hd⟩
      rcases bind_andThen h with ⟨_, _, hfirst, he⟩ | ⟨_, _, _, hrest⟩
      · cases he
        exact ihc hc hfirst
      · exact ihd hd hrest
  | and c d ihc ihd =>
      rcases not_or.mp (fun hmem => hexits (List.mem_append.mpr hmem)) with ⟨hc, hd⟩
      rcases bind_andThen h with ⟨_, _, hfirst, he⟩ | ⟨_, _, _, hrest⟩
      · cases he
        exact ihc hc hfirst
      · split at hrest
        · exact ihd hd hrest
        · cases hrest
  | or c d ihc ihd =>
      rcases not_or.mp (fun hmem => hexits (List.mem_append.mpr hmem)) with ⟨hc, hd⟩
      rcases bind_andThen h with ⟨_, _, hfirst, he⟩ | ⟨_, _, _, hrest⟩
      · cases he
        exact ihc hc hfirst
      · split at hrest
        · cases hrest
        · exact ihd hd hrest
  | ite test yes no iht ihy ihn =>
      rcases not_or.mp (fun hmem => hexits (List.mem_append.mpr hmem)) with ⟨ht, hbranches⟩
      rcases not_or.mp (fun hmem => hbranches (List.mem_append.mpr hmem)) with ⟨hy, hn⟩
      rcases bind_andThen h with ⟨_, _, hfirst, he⟩ | ⟨_, _, _, hrest⟩
      · cases he
        exact iht ht hfirst
      · split at hrest
        · exact ihy hy hrest
        · exact ihn hn hrest
  | call body ih =>
      rcases bind_andThen h with ⟨_, _, hbody, he⟩ | ⟨_, _, _, hsettle⟩
      · cases he
        exact ih hexits hbody
      · exact settle_exited (Option.some.inj hsettle)
  | sub body =>
      rw [exec, Option.map_eq_some_iff] at h
      rcases h with ⟨_, _, hsettle⟩
      exact settle_exited hsettle
  | pipe c d =>
      rw [exec, Option.bind_eq_some_iff] at h
      rcases h with ⟨_, _, h⟩
      rw [Option.map_eq_some_iff] at h
      rcases h with ⟨_, _, hsettle⟩
      exact settle_exited hsettle

/-! ## Commands that return -/

/-- Simple commands that all return keep the rest of the world such that they do. -/
def Returns (act : Act κ ρ ω) (c : Cmd κ) (I : ω → Prop) : Prop :=
  ∀ k ∈ c.commands, ∀ vars w, I w.rest → ∃ n vars' rest, act k vars w = some (n, vars', rest) ∧
    I rest

variable {I : ω → Prop}

theorem Returns.mono (h : Returns act c I) (hcmd : ∀ k ∈ d.commands, k ∈ c.commands) :
    Returns act d I :=
  fun k hk => h k (hcmd k hk)

theorem andThen_returns {x : Option (Outcome κ ρ ω)}
    {next : Nat → Shell κ ρ ω → Option (Outcome κ ρ ω)} (hx : ∃ o, x = some o ∧ I o.world.rest)
    (hnext : ∀ n t, I t.world.rest → ∃ o, next n t = some o ∧ I o.world.rest) :
    ∃ o, (x.bind fun o => o.andThen next) = some o ∧ I o.world.rest := by
  rcases hx with ⟨first, rfl, hfirst⟩
  cases first with
  | done n t => exact hnext n t hfirst
  | exited n w => exact ⟨_, rfl, hfirst⟩

theorem exec_returns (hret : Returns act c I) (hs : I s.world.rest) :
    ∃ o, exec act ctx c s = some o ∧ I o.world.rest := by
  induction c generalizing ctx s with
  | run k =>
      rcases hret k List.mem_cons_self s.vars s.world hs with ⟨n, vars, rest, hact, hrest⟩
      refine ⟨_, by rw [exec, hact]; rfl, ?_⟩
      rw [settle_world]
      exact hrest
  | set change => exact ⟨_, rfl, hs⟩
  | exit status => exact ⟨_, rfl, hs⟩
  | seq c d ihc ihd =>
      exact andThen_returns (ihc (hret.mono fun k hk => List.mem_append_left _ hk) hs)
        fun _ _ ht => ihd (hret.mono fun k hk => List.mem_append_right _ hk) ht
  | and c d ihc ihd =>
      apply andThen_returns (ihc (hret.mono fun k hk => List.mem_append_left _ hk) hs)
      intro n t ht
      split
      · exact ihd (hret.mono fun k hk => List.mem_append_right _ hk) ht
      · exact ⟨_, rfl, ht⟩
  | or c d ihc ihd =>
      apply andThen_returns (ihc (hret.mono fun k hk => List.mem_append_left _ hk) hs)
      intro n t ht
      split
      · exact ⟨_, rfl, ht⟩
      · exact ihd (hret.mono fun k hk => List.mem_append_right _ hk) ht
  | ite test yes no iht ihy ihn =>
      apply andThen_returns (iht (hret.mono fun k hk => List.mem_append_left _ hk) hs)
      intro n t ht
      split
      · exact ihy (hret.mono fun k hk => List.mem_append_right _ (List.mem_append_left _ hk)) ht
      · exact ihn (hret.mono fun k hk => List.mem_append_right _ (List.mem_append_right _ hk)) ht
  | call body ih =>
      apply andThen_returns (ih hret hs)
      intro n t ht
      refine ⟨_, rfl, ?_⟩
      rw [settle_world]
      exact ht
  | sub body ih =>
      have hin : ∃ o, exec act (ctx.inner s.options.errexit) body s = some o ∧ I o.world.rest :=
        ih hret hs
      rcases hin with ⟨inside, hbody, hinside⟩
      refine ⟨_, by rw [exec, hbody]; rfl, ?_⟩
      rw [settle_world]
      exact hinside
  | pipe c d ihc ihd =>
      have hin : ∃ o, exec act (ctx.inner (s.options.errexit && s.options.pipefail)) c s = some o ∧
          I o.world.rest := ihc (hret.mono fun k hk => List.mem_append_left _ hk) hs
      rcases hin with ⟨first, hfirst, hmid⟩
      have hin' : ∃ o, exec act (ctx.inner s.options.errexit) d { s with world := first.world } =
          some o ∧ I o.world.rest := ihd (hret.mono fun k hk => List.mem_append_right _ hk) hmid
      rcases hin' with ⟨second, hsecond, hend⟩
      refine ⟨_, by rw [exec, hfirst, Option.bind_some, hsecond]; rfl, ?_⟩
      rw [settle_world]
      exact hend

/-! ## Pre- and postconditions -/

def Outcome.Sat (Q : Nat → Shell κ ρ ω → Prop) (R : Nat → World κ ρ ω → Prop) :
    Outcome κ ρ ω → Prop
  | .done n s => Q n s
  | .exited n w => R n w

/-- A command begun with `P` goes on with `Q`, or it ends the shell with `R`. -/
def Triple (act : Act κ ρ ω) (ctx : Context) (P : Shell κ ρ ω → Prop) (c : Cmd κ)
    (Q : Nat → Shell κ ρ ω → Prop) (R : Nat → World κ ρ ω → Prop) : Prop :=
  ∀ s o, P s → exec act ctx c s = some o → o.Sat Q R

theorem settle_sat {Q : Nat → Shell κ ρ ω → Prop} {R : Nat → World κ ρ ω → Prop} (hQ : Q n s)
    (hR : n ≠ 0 → R n s.world) : (settle ctx n s).Sat Q R := by
  unfold settle
  split
  case isTrue h => exact hR h.1
  case isFalse => exact hQ

namespace Triple

variable {P P' M : Shell κ ρ ω → Prop} {N Q Q' : Nat → Shell κ ρ ω → Prop}
  {R R' : Nat → World κ ρ ω → Prop} {k : κ}

theorem weaken (hP : ∀ s, P' s → P s) (hQ : ∀ n s, Q n s → Q' n s) (hR : ∀ n w, R n w → R' n w)
    (h : Triple act ctx P c Q R) : Triple act ctx P' c Q' R' := by
  intro s o hs ho
  have hsat := h s o (hP s hs) ho
  cases o with
  | done n t => exact hQ n t hsat
  | exited n w => exact hR n w hsat

/-- Where no `exit 0` is in a command, the status of a shell that it ends is not 0. -/
theorem exits (hexits : 0 ∉ c.exits) (h : Triple act ctx P c Q R) :
    Triple act ctx P c Q (fun n w => n ≠ 0 ∧ R n w) := by
  intro s o hs ho
  have hsat := h s o hs ho
  cases o with
  | done n t => exact hsat
  | exited n w => exact ⟨exec_exited hexits ho, hsat⟩

theorem exists_pre {ι : Type} {P : ι → Shell κ ρ ω → Prop}
    (h : ∀ i, Triple act ctx (P i) c Q R) : Triple act ctx (fun s => ∃ i, P i s) c Q R := by
  intro s o hs ho
  rcases hs with ⟨i, hi⟩
  exact h i s o hi ho

theorem run (h : ∀ s, P s → ∀ n vars rest, act k s.vars s.world = some (n, vars, rest) →
    (settle ctx n (⟨s.options, vars, ⟨s.world.log ++
      [⟨k, s.vars, n, ctx = .checked ∧ s.options.errexit = true⟩], rest⟩⟩ : Shell κ ρ ω)).Sat Q R) :
    Triple act ctx P (.run k) Q R := by
  intro s o hs ho
  rw [exec, Option.map_eq_some_iff] at ho
  rcases ho with ⟨⟨n, vars, rest⟩, hact, rfl⟩
  exact h s hs n vars rest hact

theorem set {change : Options → Options}
    (h : ∀ s, P s → Q 0 { s with options := change s.options }) :
    Triple act ctx P (.set change) Q R := by
  intro s o hs ho
  rw [← Option.some.inj ho]
  exact h s hs

theorem exit (h : ∀ s, P s → R n s.world) : Triple act ctx P (.exit n) Q R := by
  intro s o hs ho
  rw [← Option.some.inj ho]
  exact h s hs

theorem seq (hc : Triple act ctx P c (fun _ => M) R) (hd : Triple act ctx M d Q R) :
    Triple act ctx P (.seq c d) Q R := by
  intro s o hs ho
  rcases bind_andThen ho with ⟨n, w, hfirst, rfl⟩ | ⟨n, t, hfirst, hrest⟩
  · exact hc s _ hs hfirst
  · exact hd t o (hc s _ hs hfirst) hrest

theorem and (hc : Triple act .tested P c N R) (hd : Triple act ctx (N 0) d Q R)
    (hfail : ∀ n s, n ≠ 0 → N n s → Q n s) : Triple act ctx P (.and c d) Q R := by
  intro s o hs ho
  rcases bind_andThen ho with ⟨n, w, hfirst, rfl⟩ | ⟨n, t, hfirst, hrest⟩
  · exact hc s _ hs hfirst
  · have ht : N n t := hc s _ hs hfirst
    split at hrest
    case isTrue hn =>
        rw [hn] at ht
        exact hd t o ht hrest
    case isFalse hn =>
        rw [← Option.some.inj hrest]
        exact hfail n t hn ht

theorem or (hc : Triple act .tested P c N R)
    (hd : Triple act ctx (fun s => ∃ n, n ≠ 0 ∧ N n s) d Q R) (hok : ∀ s, N 0 s → Q 0 s) :
    Triple act ctx P (.or c d) Q R := by
  intro s o hs ho
  rcases bind_andThen ho with ⟨n, w, hfirst, rfl⟩ | ⟨n, t, hfirst, hrest⟩
  · exact hc s _ hs hfirst
  · have ht : N n t := hc s _ hs hfirst
    split at hrest
    case isTrue hn =>
        rw [← Option.some.inj hrest]
        rw [hn] at ht ⊢
        exact hok t ht
    case isFalse hn => exact hd t o ⟨n, hn, ht⟩ hrest

theorem ite (htest : Triple act .tested P test N R) (hyes : Triple act ctx (N 0) yes Q R)
    (hno : Triple act ctx (fun s => ∃ n, n ≠ 0 ∧ N n s) no Q R) :
    Triple act ctx P (.ite test yes no) Q R := by
  intro s o hs ho
  rcases bind_andThen ho with ⟨n, w, hfirst, rfl⟩ | ⟨n, t, hfirst, hrest⟩
  · exact htest s _ hs hfirst
  · have ht : N n t := htest s _ hs hfirst
    split at hrest
    case isTrue hn =>
        rw [hn] at ht
        exact hyes t o ht hrest
    case isFalse hn => exact hno t o ⟨n, hn, ht⟩ hrest

theorem call (h : Triple act ctx P body (fun n s => (settle ctx n s).Sat Q R) R) :
    Triple act ctx P (.call body) Q R := by
  intro s o hs ho
  rcases bind_andThen ho with ⟨n, w, hbody, rfl⟩ | ⟨n, t, hbody, hsettle⟩
  · exact h s _ hs hbody
  · rw [← Option.some.inj hsettle]
    exact h s _ hs hbody

theorem sub (h : ∀ s, P s → Triple act (ctx.inner s.options.errexit) (· = s) body
      (fun n t => (settle ctx n { s with world := t.world }).Sat Q R)
      (fun n w => (settle ctx n { s with world := w }).Sat Q R)) :
    Triple act ctx P (.sub body) Q R := by
  intro s o hs ho
  rw [exec, Option.map_eq_some_iff] at ho
  rcases ho with ⟨inside, hbody, rfl⟩
  have hsat := h s hs s inside rfl hbody
  cases inside with
  | done n t => exact hsat
  | exited n w => exact hsat

theorem pipe {N : Shell κ ρ ω → Nat → World κ ρ ω → Prop}
    (hc : ∀ s, P s → Triple act (ctx.inner (s.options.errexit && s.options.pipefail)) (· = s) c
      (fun n t => N s n t.world) (fun n w => N s n w))
    (hd : ∀ s n w, N s n w → Triple act (ctx.inner s.options.errexit) (· = { s with world := w }) d
      (fun m t => (settle ctx (pipeStatus s.options n m) { s with world := t.world }).Sat Q R)
      (fun m w' => (settle ctx (pipeStatus s.options n m) { s with world := w' }).Sat Q R)) :
    Triple act ctx P (.pipe c d) Q R := by
  intro s o hs ho
  rw [exec, Option.bind_eq_some_iff] at ho
  rcases ho with ⟨first, hfirst, ho⟩
  rw [Option.map_eq_some_iff] at ho
  rcases ho with ⟨second, hsecond, rfl⟩
  have hmid : N s first.status first.world := by
    have hsat := hc s hs s first rfl hfirst
    cases first with
    | done n t => exact hsat
    | exited n w => exact hsat
  have hsat := hd s _ _ hmid _ second rfl hsecond
  cases second with
  | done m t => exact hsat
  | exited m w => exact hsat

end Triple

/-! ## Strict mode -/

/-- `set -euo pipefail` -/
def strict : Options := ⟨true, true⟩

def Here (options : Options) (V : ρ → Prop) (A : World κ ρ ω → Prop) (s : Shell κ ρ ω) : Prop :=
  s.options = options ∧ V s.vars ∧ A s.world

def Ends (S : World κ ρ ω → Prop) (n : Nat) (w : World κ ρ ω) : Prop := n ≠ 0 ∧ S w

section Strict

variable {V V' : ρ → Prop} {A B S : World κ ρ ω → Prop} {k : κ}
  {Q : Nat → Shell κ ρ ω → Prop} {R : Nat → World κ ρ ω → Prop}

theorem settle_strict (hs : s.options = strict) (hok : n = 0 → Q 0 s)
    (hbad : n ≠ 0 → R n s.world) : (settle .checked n s).Sat Q R := by
  by_cases hn : n = 0
  · rw [hn, settle_zero]
    exact hok hn
  · rw [settle_checked (by rw [hs]; rfl) hn]
    exact hbad hn

theorem Triple.strict_run
    (h : ∀ vars w n vars' rest, V vars → A w → act k vars w = some (n, vars', rest) →
      (n = 0 → V' vars' ∧ B ⟨w.log ++ [⟨k, vars, n, true⟩], rest⟩) ∧
        (n ≠ 0 → S ⟨w.log ++ [⟨k, vars, n, true⟩], rest⟩)) :
    Triple act .checked (Here strict V A) (.run k) (fun n s => n = 0 ∧ Here strict V' B s)
      (Ends S) := by
  apply Triple.run
  intro s hs n vars rest hact
  have hchecked : decide (Context.checked = .checked ∧ s.options.errexit = true) = true := by
    rw [hs.1]
    rfl
  rw [hchecked]
  rcases h _ _ _ _ _ hs.2.1 hs.2.2 hact with ⟨hok, hbad⟩
  exact settle_strict hs.1 (fun hn => ⟨rfl, hs.1, hok hn⟩) (fun hn => ⟨hn, hbad hn⟩)

theorem Triple.tested_run {options : Options} {V' : Nat → ρ → Prop}
    {B : Nat → World κ ρ ω → Prop}
    (hctx : ctx = .tested ∨ options.errexit = false)
    (h : ∀ vars w n vars' rest, V vars → A w → act k vars w = some (n, vars', rest) →
      V' n vars' ∧ B n ⟨w.log ++ [⟨k, vars, n, false⟩], rest⟩) :
    Triple act ctx (Here options V A) (.run k) (fun n => Here options (V' n) (B n)) R := by
  apply Triple.run
  intro s hs n vars rest hact
  have hchecked : decide (ctx = .checked ∧ s.options.errexit = true) = false := by
    rw [hs.1]
    rcases hctx with rfl | herr
    · rfl
    · rw [herr]
      exact decide_eq_false nofun
  have hsettle : ∀ t : Shell κ ρ ω, t.options = options → settle ctx n t = .done n t := by
    intro t ht
    rcases hctx with rfl | herr
    · exact settle_tested n t
    · apply if_neg
      rw [ht, herr]
      exact nofun
  rw [hchecked, hsettle ⟨s.options, vars, _⟩ hs.1]
  exact ⟨hs.1, h _ _ _ _ _ hs.2.1 hs.2.2 hact⟩

theorem Triple.strict_call
    (h : Triple act .checked (Here strict V A) body (fun n s => n = 0 ∧ Here strict V' B s)
      (Ends S)) :
    Triple act .checked (Here strict V A) (.call body) (fun n s => n = 0 ∧ Here strict V' B s)
      (Ends S) := by
  apply Triple.call
  refine h.weaken (fun _ hs => hs) ?_ (fun _ _ hw => hw)
  intro n s hs
  rw [hs.1, settle_zero]
  exact ⟨rfl, hs.2⟩

/-- A subshell in strict mode: the shell around it goes on with its own variables where the
subshell succeeds. -/
theorem Triple.strict_sub (hexits : 0 ∉ body.exits)
    (h : Triple act .checked (Here strict V A) body (fun n s => n = 0 ∧ B s.world) (fun _ => S)) :
    Triple act .checked (Here strict V A) (.sub body) (fun n s => n = 0 ∧ Here strict V B s)
      (Ends S) := by
  apply Triple.sub
  intro s hs
  have hinner : Context.checked.inner s.options.errexit = .checked :=
    inner_eq_checked.mpr ⟨rfl, by rw [hs.1]; rfl⟩
  rw [hinner]
  refine (h.exits hexits).weaken (fun t ht => by rw [ht]; exact hs) ?_ ?_
  · intro n t ht
    rw [ht.1, settle_zero]
    exact ⟨rfl, hs.1, hs.2.1, ht.2⟩
  · intro n w hw
    rw [settle_checked (by rw [hs.1]; rfl) hw.1]
    exact hw

/-- A pipeline in strict mode. Behind a first part that fails, the second one must keep `S`. -/
theorem Triple.strict_pipe (hexits : 0 ∉ c.exits) (hexits' : 0 ∉ d.exits)
    (hc : Triple act .checked (Here strict V A) c (fun n s => n = 0 ∧ B s.world) (fun _ => S))
    (hd : Triple act .checked (Here strict V B) d (fun n s => n = 0 ∧ B s.world) (fun _ => S))
    (hS : ∀ w w', Grows (fun e => e.command ∈ d.commands) w w' → S w → S w') :
    Triple act .checked (Here strict V A) (.pipe c d) (fun n s => n = 0 ∧ Here strict V B s)
      (Ends S) := by
  apply Triple.pipe (N := fun s n w => Here strict V A s ∧ (n = 0 ∧ B w ∨ n ≠ 0 ∧ S w))
  · intro s hs
    have hinner : Context.checked.inner (s.options.errexit && s.options.pipefail) = .checked :=
      inner_eq_checked.mpr ⟨rfl, by rw [hs.1]; rfl⟩
    rw [hinner]
    exact (hc.exits hexits).weaken (fun t ht => by rw [ht]; exact hs)
      (fun n t ht => ⟨hs, .inl ht⟩) (fun n w hw => ⟨hs, .inr hw⟩)
  · intro s n w hw
    have hinner : Context.checked.inner s.options.errexit = .checked :=
      inner_eq_checked.mpr ⟨rfl, by rw [hw.1.1]; rfl⟩
    have hsettle : ∀ m w', (pipeStatus s.options n m = 0 → B w') →
        (pipeStatus s.options n m ≠ 0 → S w') →
        (settle .checked (pipeStatus s.options n m) { s with world := w' }).Sat
          (fun n s => n = 0 ∧ Here strict V B s) (Ends S) := by
      intro m w' hok hbad
      exact settle_strict (s := { s with world := w' }) hw.1.1
        (fun hzero => ⟨rfl, hw.1.1, hw.1.2.1, hok hzero⟩) (fun hne => ⟨hne, hbad hne⟩)
    rw [hinner]
    rcases hw.2 with ⟨hn, hB⟩ | ⟨hn, hs⟩
    · refine (hd.exits hexits').weaken (fun t ht => by rw [ht]; exact ⟨hw.1.1, hw.1.2.1, hB⟩) ?_ ?_
      · intro m t ht
        exact hsettle m _ (fun _ => ht.2)
          (fun hne => absurd (by rw [hn, ht.1]; unfold pipeStatus; split <;> rfl) hne)
      · intro m w' hw'
        exact hsettle m w' (fun hzero => absurd hzero (pipeStatus_ne_zero (.inl hw'.1)))
          (fun _ => hw'.2)
    · have hpipe : ∀ m, pipeStatus s.options n m ≠ 0 := fun m =>
        pipeStatus_ne_zero (.inr ⟨hn, by rw [hw.1.1]; rfl⟩)
      intro t o ht ho
      have hgrows := exec_commands ho
      rw [ht] at hgrows
      have hgoal := hsettle o.status o.world (fun hzero => absurd hzero (hpipe _))
        (fun _ => hS _ _ hgrows hs)
      cases o with
      | done m t' => exact hgoal
      | exited m w' => exact hgoal

end Strict

end KernelTrg.Errexit
