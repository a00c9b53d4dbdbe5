import KernelTrg.Kbuild.Script

/-!
# Plans of the build script

The steps that a run of the script takes, from its log, and the plan that stands in front of an
installation. Rules for the script's simple commands: what they add to the steps, and that one that
fails gives the script cause to end.
-/

namespace KernelTrg.Kbuild

open Bytes Errexit

/-! ## Steps -/

/-- A step, with the word that the script puts in: the directory, or the number of jobs. -/
structure Step where
  program : Program
  word : List UInt8
  status : Nat
  deriving DecidableEq

def isStep : Program → Bool
  | .cd | .lsmod | .localmodconfig | .oldconfig | .menuconfig | .scriptsConfig | .noConfig | .make
  | .noImage | .getYnReply | .modulesInstall | .install => true
  | _ => false

def word : Program → Vars → List UInt8
  | .cd, v => v.KSRC.getD []
  | .make, v => v.JOBS
  | _, _ => []

def toStep (e : Event Command Vars) : Option Step :=
  match e.command with
  | .program p => if isStep p then some ⟨p, word p e.vars, e.status⟩ else none
  | _ => none

def steps (w : World) : List Step := w.log.filterMap toStep

def Installs (l : List Step) : Prop := ∃ st ∈ l, st.program = .install

/-- A failure that the script does not pass over: not that of the `make oldconfig` it runs for want
of a `.config`, nor the answer of a test. -/
def Fatal (e : Event Command Vars) : Prop :=
  match e.command with
  | .program .cd => e.vars.KSRC ≠ none ∧ e.status ≠ 0
  | .program .noImage => e.status = 0
  | .program .oldconfig => e.checked = true ∧ e.status ≠ 0
  | .program .noConfig | .program .getYnReply | .test _ | .assign _ => False
  | _ => e.status ≠ 0

def Excuse (w : World) : Prop := ∃ e ∈ w.log, Fatal e

/-! ## Plans -/

def sourceTree (v : Vars) : Option (List UInt8) :=
  match v.args with
  | [dir] => some dir
  | [_, dir] => some dir
  | _ => v.KSRC

/-- What the variable `nproc` is set to: the number of processors, or nothing where the program
fails. -/
def Env.Shows (env : Env) (m : Nat) : Prop :=
  m = env.nproc ∨ m = 0 ∧ ∃ u w, (env.react (.program .nproc) u w).1 ≠ 0

/-- Twice the processors if the variable shows up to 64 of them, above that half as many again. -/
def jobs (env : Env) (m : Nat) : Nat := if m ≤ 64 then env.nproc * 2 else 3 * m / 2

def asksConfig (v : Vars) : Prop := 2 ≤ v.args.length ∧ v.args.headD [] = ascii "-c"

/-- The configuration asked for, or a `make oldconfig`, whose status does not matter, where there
is no `.config`. -/
def Configured (v : Vars) (l : List Step) : Prop :=
  asksConfig v ∧ l = [⟨.lsmod, [], 0⟩, ⟨.localmodconfig, [], 0⟩, ⟨.oldconfig, [], 0⟩,
    ⟨.menuconfig, [], 0⟩, ⟨.scriptsConfig, [], 0⟩] ∨
  ¬asksConfig v ∧ ((∃ n, n ≠ 0 ∧ l = [⟨.noConfig, [], n⟩]) ∨
    ∃ n, l = [⟨.noConfig, [], 0⟩, ⟨.oldconfig, [], n⟩])

def Built (env : Env) (l : List Step) : Prop :=
  ∃ m n, env.Shows m ∧ n ≠ 0 ∧ l = [⟨.make, decimal (jobs env m), 0⟩, ⟨.noImage, [], n⟩]

def Replied (l : List Step) : Prop :=
  l = [⟨.getYnReply, [], 0⟩, ⟨.modulesInstall, [], 0⟩] ∨ ∃ n, n ≠ 0 ∧ l = [⟨.getYnReply, [], n⟩]

def Plan (env : Env) (v : Vars) (l : List Step) : Prop :=
  ∃ dir conf built replied, sourceTree v = some dir ∧ Configured v conf ∧ Built env built ∧
    Replied replied ∧ l = ⟨.cd, dir, 0⟩ :: conf ++ built ++ replied

def BadUsage (v : Vars) : Prop :=
  v.args = [] ∨ v.args = [ascii "-c"] ∨ (v.ARCH ≠ [] ∧ v.ARCH ≠ ascii "x86") ∨ sourceTree v = none

def Installed (env : Env) (v : Vars) (l : List Step) : Prop :=
  ∃ plan, Plan env v plan ∧ l = plan ++ [⟨.install, [], 0⟩]

/-- The steps of a script that has installed nothing, or that has at the end of a whole plan. -/
def Orderly (env : Env) (v : Vars) (l : List Step) : Prop :=
  ¬Installs l ∨ ∃ plan n, Plan env v plan ∧ l = plan ++ [⟨.install, [], n⟩]

def Stopped (env : Env) (v : Vars) (w : World) : Prop :=
  (BadUsage v ∨ Excuse w) ∧ Orderly env v (steps w)

def At (l : List Step) (w : World) : Prop := steps w = l

variable {env : Env} {v u : Vars} {w w' : World} {l front : List Step} {ctx : Context}
  {c d : Cmd Command} {V V' : Vars → Prop} {k : Command} {p : Program}
  {Q : Nat → Shell Command Vars (List Line) → Prop} {R : Nat → World → Prop}

theorem steps_snoc (w : World) (e : Event Command Vars) (rest : List Line) :
    steps ⟨w.log ++ [e], rest⟩ = steps w ++ (toStep e).toList := by
  unfold steps
  rw [List.filterMap_append]
  cases h : toStep e <;> simp [h]

theorem steps_grows (h : Grows (fun e => toStep e = none) w w') : steps w' = steps w := by
  rcases h with ⟨events, hlog, hnone⟩
  unfold steps
  rw [hlog, List.filterMap_append, List.filterMap_eq_nil_iff.mpr hnone, List.append_nil]

theorem Excuse.grows {ok : Event Command Vars → Prop} (h : Excuse w) (hgrows : Grows ok w w') :
    Excuse w' := by
  rcases h with ⟨e, he, hfatal⟩
  rcases hgrows with ⟨events, hlog, _⟩
  exact ⟨e, by rw [hlog]; exact List.mem_append_left _ he, hfatal⟩

theorem Excuse.snoc (w : World) {e : Event Command Vars} (h : Fatal e) (rest : List Line) :
    Excuse ⟨w.log ++ [e], rest⟩ :=
  ⟨e, List.mem_append_right _ List.mem_cons_self, h⟩

/-- Nothing that is no step undoes a stop. -/
theorem Stopped.grows (h : Stopped env v w) (hgrows : Grows (fun e => toStep e = none) w w') :
    Stopped env v w' := by
  unfold Stopped
  rw [steps_grows hgrows]
  exact ⟨h.1.imp_right (·.grows hgrows), h.2⟩

/-! ## Simple commands -/

section Commands

variable {options : Options} {added : Nat → List Step}

theorem strict_command (added : Nat → List Step)
    (hstep : ∀ u n b, V u → (toStep ⟨k, u, n, b⟩).toList = added n)
    (hact : ∀ u w n u' rest, V u → act env k u w = some (n, u', rest) →
      V' u' ∧ (n ≠ 0 → Fatal ⟨k, u, n, true⟩))
    (hfront : ∀ n, n ≠ 0 → Orderly env v (front ++ added n)) :
    Triple (act env) .checked (Here strict V (At front)) (.run k)
      (fun n s => n = 0 ∧ Here strict V' (At (front ++ added 0)) s) (Ends (Stopped env v)) := by
  apply Triple.strict_run
  intro u w n u' rest hu hw h
  have hsteps : ∀ b, steps ⟨w.log ++ [⟨k, u, n, b⟩], rest⟩ = front ++ added n := by
    intro b
    rw [steps_snoc, hstep u n b hu, hw]
  rcases hact u w n u' rest hu h with ⟨hV', hfatal⟩
  constructor
  · intro hn
    rw [hn] at hsteps ⊢
    exact ⟨hV', hsteps true⟩
  · intro hn
    refine ⟨.inr (Excuse.snoc w (hfatal hn) rest), ?_⟩
    rw [hsteps]
    exact hfront n hn

theorem strict_quiet (hstep : ∀ u n b, toStep ⟨k, u, n, b⟩ = none)
    (hact : ∀ u w n u' rest, V u → act env k u w = some (n, u', rest) →
      V' u' ∧ (n ≠ 0 → Fatal ⟨k, u, n, true⟩))
    (hfront : Orderly env v front) :
    Triple (act env) .checked (Here strict V (At front)) (.run k)
      (fun n s => n = 0 ∧ Here strict V' (At front) s) (Ends (Stopped env v)) := by
  have h : Triple (act env) .checked (Here strict V (At front)) (.run k)
      (fun n s => n = 0 ∧ Here strict V' (At (front ++ [])) s) (Ends (Stopped env v)) :=
    strict_command (fun _ => []) (fun u n b _ => by rw [hstep]; rfl) hact
      (fun _ _ => by rw [List.append_nil]; exact hfront)
  rw [List.append_nil] at h
  exact h

theorem strict_quiet_seq (hstep : ∀ u n b, toStep ⟨k, u, n, b⟩ = none)
    (hact : ∀ u w n u' rest, V u → act env k u w = some (n, u', rest) →
      V' u' ∧ (n ≠ 0 → Fatal ⟨k, u, n, true⟩))
    (hfront : Orderly env v front)
    (hd : Triple (act env) .checked (Here strict V' (At front)) d Q (Ends (Stopped env v))) :
    Triple (act env) .checked (Here strict V (At front)) (.seq (.run k) d) Q
      (Ends (Stopped env v)) :=
  Triple.seq ((strict_quiet hstep hact hfront).weaken (fun _ hs => hs) (fun _ _ hs => hs.2)
    fun _ _ hw => hw) hd

theorem tested_command (added : Nat → List Step) {bad : Nat → Prop}
    (hctx : ctx = .tested ∨ options.errexit = false)
    (hstep : ∀ u n b, V u → (toStep ⟨k, u, n, b⟩).toList = added n)
    (hact : ∀ u w n u' rest, V u → act env k u w = some (n, u', rest) →
      V' u' ∧ (bad n → Fatal ⟨k, u, n, false⟩)) :
    Triple (act env) ctx (Here options V (At front)) (.run k)
      (fun n => Here options V' fun w => steps w = front ++ added n ∧ (bad n → Excuse w)) R := by
  apply Triple.tested_run hctx
  intro u w n u' rest hu hw h
  rcases hact u w n u' rest hu h with ⟨hV', hfatal⟩
  refine ⟨hV', ?_, fun hbad => Excuse.snoc w (hfatal hbad) rest⟩
  rw [steps_snoc, hstep u n false hu, hw]

/-- What most commands do: nothing to the variables, and no step. -/
def Quiet (k : Command) : Prop :=
  (∀ u n b, toStep ⟨k, u, n, b⟩ = none) ∧ (∀ u n b, n ≠ 0 → Fatal ⟨k, u, n, b⟩) ∧
    ∀ env u w n u' rest, act env k u w = some (n, u', rest) → u' = u

theorem quiet_echo (text : Vars → List UInt8) : Quiet (.echo text) := by
  refine ⟨fun _ _ _ => rfl, fun _ _ _ hn => hn, ?_⟩
  intro env u w n u' rest h
  cases h
  rfl

theorem quiet_program (p : Program) (hp : p = .rm ∨ p = .date ∨ p = .version ∨ p = .stty ∨ p = .ls ∨ p = .tee) :
    Quiet (.program p) := by
  rcases hp with rfl | rfl | rfl | rfl | rfl | rfl <;>
    exact ⟨fun _ _ _ => rfl, fun _ _ _ hn => hn, fun _ _ _ _ _ _ h => by cases h; rfl⟩

theorem Quiet.run (hk : Quiet k) (hfront : Orderly env v front) :
    Triple (act env) .checked (Here strict V (At front)) (.run k)
      (fun n s => n = 0 ∧ Here strict V (At front) s) (Ends (Stopped env v)) :=
  strict_quiet hk.1 (fun u w n u' rest hu h =>
    ⟨by rw [hk.2.2 _ _ _ _ _ _ h]; exact hu, hk.2.1 u n true⟩) hfront

theorem Quiet.seq (hk : Quiet k) (hfront : Orderly env v front)
    (hd : Triple (act env) .checked (Here strict V (At front)) d Q (Ends (Stopped env v))) :
    Triple (act env) .checked (Here strict V (At front)) (.seq (.run k) d) Q
      (Ends (Stopped env v)) :=
  strict_quiet_seq hk.1 (fun u w n u' rest hu h =>
    ⟨by rw [hk.2.2 _ _ _ _ _ _ h]; exact hu, hk.2.1 u n true⟩) hfront hd

end Commands

section Quiet

theorem Quiet.tested (hk : Quiet k) :
    Triple (act env) .tested (Here strict V (At front)) (.run k)
      (fun n => Here strict V fun w => steps w = front ∧ (n ≠ 0 → Excuse w)) R := by
  have h : Triple (act env) .tested (Here strict V (At front)) (.run k)
      (fun n => Here strict V fun w => steps w = front ++ [] ∧ (n ≠ 0 → Excuse w)) R :=
    tested_command (fun _ => []) (.inl rfl) (fun u n b _ => by rw [hk.1]; rfl)
      (fun u w n u' rest hu h => ⟨by rw [hk.2.2 _ _ _ _ _ _ h]; exact hu, hk.2.1 u n false⟩)
  simp only [List.append_nil] at h
  exact h

theorem die_stops {P : Shell Command Vars (List Line) → Prop} (message : String)
    (hP : ∀ s, P s → Stopped env v s.world) :
    Triple (act env) ctx P (die message) Q (Ends (Stopped env v)) := by
  apply Triple.call
  apply Triple.seq (M := fun s => Stopped env v s.world)
  · apply Triple.run
    intro s hs n vars rest _
    have hstop : ∀ e : Event Command Vars, toStep e = none →
        Stopped env v ⟨s.world.log ++ [e], rest⟩ := by
      intro e he
      exact (hP s hs).grows ⟨[e], rfl, by simp [he]⟩
    exact settle_sat (hstop _ rfl) fun hn => ⟨hn, hstop _ rfl⟩
  · apply Triple.exit
    intro s hs
    exact ⟨Nat.one_ne_zero, hs⟩

theorem tested_or_die (message : String) (hc : Triple (act env) .tested (Here strict V (At front)) c
      (fun n => Here strict V' fun w => (n = 0 → steps w = l) ∧ (n ≠ 0 → Stopped env v w))
      (Ends (Stopped env v))) :
    Triple (act env) .checked (Here strict V (At front)) (.or c (die message))
      (fun n s => n = 0 ∧ Here strict V' (At l) s) (Ends (Stopped env v)) := by
  apply Triple.or hc
  · apply die_stops
    intro s hs
    rcases hs with ⟨n, hn, hs⟩
    exact hs.2.2.2 hn
  · intro s hs
    exact ⟨rfl, hs.1, hs.2.1, hs.2.2.1 rfl⟩

end Quiet

end KernelTrg.Kbuild
