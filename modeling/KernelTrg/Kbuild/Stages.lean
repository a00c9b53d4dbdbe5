import KernelTrg.Kbuild.Plans

/-!
# The stages of the build script

What each stage adds to the steps, in strict mode: entering the source tree, configuring, building,
installing.
-/

namespace KernelTrg.Kbuild

open Bytes Errexit

variable {env : Env} {v u : Vars} {w w' : World} {l front : List Step} {ctx : Context}
  {c d : Cmd Command} {V V' : Vars → Prop} {k : Command} {p : Program}
  {Q : Nat → Shell Command Vars (List Line) → Prop} {R : Nat → World → Prop}

/-! ## Steps in strict mode -/

def Known (v u : Vars) : Prop := u.args = v.args ∧ u.KSRC = sourceTree v

/-- A program that is a step, leaves the variables alone and may not fail. -/
def Needed (p : Program) : Prop :=
  isStep p = true ∧ (∀ u n b, (n ≠ 0 → b = true ∨ p ≠ .oldconfig) → n ≠ 0 →
    Fatal ⟨.program p, u, n, b⟩) ∧
      ∀ env u w n u' rest, act env (.program p) u w = some (n, u', rest) → u' = u

theorem needed_program (p : Program) (hp : p = .lsmod ∨ p = .localmodconfig ∨
    p = .oldconfig ∨ p = .menuconfig ∨ p = .scriptsConfig ∨ p = .make ∨ p = .modulesInstall ∨ p = .install) :
    Needed p := by
  rcases hp with rfl | rfl | rfl | rfl | rfl | rfl | rfl | rfl <;>
    refine ⟨rfl, fun _ n b hb hn => ?_, fun _ _ _ _ _ _ h => by cases h; rfl⟩
  case inr.inr.inl =>
      rcases hb hn with hchecked | hne
      · exact ⟨hchecked, hn⟩
      · exact absurd rfl hne
  all_goals exact hn

theorem toStep_program (hp : isStep p = true) {word' : List UInt8} (hword : word p u = word')
    (n : Nat) (b : Bool) : (toStep ⟨.program p, u, n, b⟩).toList = [⟨p, word', n⟩] := by
  have hstep : toStep ⟨.program p, u, n, b⟩ = some ⟨p, word p u, n⟩ := if_pos hp
  rw [hstep, hword]
  rfl

theorem not_installs_append {l' : List Step} :
    ¬Installs (l ++ l') ↔ ¬Installs l ∧ ¬Installs l' := by
  unfold Installs
  constructor
  · intro h
    exact ⟨fun ⟨st, hst, hp⟩ => h ⟨st, List.mem_append_left _ hst, hp⟩,
      fun ⟨st, hst, hp⟩ => h ⟨st, List.mem_append_right _ hst, hp⟩⟩
  · intro h hinstalls
    rcases hinstalls with ⟨st, hst, hp⟩
    rcases List.mem_append.mp hst with hst | hst
    · exact h.1 ⟨st, hst, hp⟩
    · exact h.2 ⟨st, hst, hp⟩

theorem not_installs_snoc {x : Step} (h : ¬Installs l) (hp : x.program ≠ .install) :
    ¬Installs (l ++ [x]) := by
  refine not_installs_append.mpr ⟨h, ?_⟩
  intro hinstalls
  rcases hinstalls with ⟨st, hst, hinstall⟩
  rw [List.mem_singleton.mp hst] at hinstall
  exact hp hinstall

theorem Needed.run {word' : List UInt8} (hp : Needed p) (hword : ∀ u, V u → word p u = word')
    (hfront : ¬Installs front) (hne : p ≠ .install) :
    Triple (act env) .checked (Here strict V (At front)) (program p)
      (fun n s => n = 0 ∧ Here strict V (At (front ++ [⟨p, word', 0⟩])) s)
      (Ends (Stopped env v)) :=
  strict_command (fun n => [⟨p, word', n⟩]) (fun u n b hu => toStep_program hp.1 (hword u hu) n b)
    (fun u w n u' rest hu h => ⟨by rw [hp.2.2 _ _ _ _ _ _ h]; exact hu,
      hp.2.1 u n true fun _ => .inl rfl⟩)
    (fun _ _ => .inl (not_installs_snoc hfront hne))

theorem Needed.seq {word' : List UInt8} (hp : Needed p) (hword : ∀ u, V u → word p u = word')
    (hfront : ¬Installs front) (hne : p ≠ .install)
    (hd : Triple (act env) .checked (Here strict V (At (front ++ [⟨p, word', 0⟩]))) d Q
      (Ends (Stopped env v))) :
    Triple (act env) .checked (Here strict V (At front)) (.seq (program p) d) Q
      (Ends (Stopped env v)) :=
  Triple.seq ((hp.run hword hfront hne).weaken (fun _ hs => hs) (fun _ _ hs => hs.2)
    fun _ _ hw => hw) hd

theorem Needed.tested {word' : List UInt8} (hp : Needed p) (hword : ∀ u, V u → word p u = word')
    (hne : p ≠ .oldconfig) :
    Triple (act env) .tested (Here strict V (At front)) (program p)
      (fun n => Here strict V fun w => steps w = front ++ [⟨p, word', n⟩] ∧ (n ≠ 0 → Excuse w)) R :=
  tested_command (fun n => [⟨p, word', n⟩]) (.inl rfl)
    (fun u n b hu => toStep_program hp.1 (hword u hu) n b)
    (fun u w n u' rest hu h => ⟨by rw [hp.2.2 _ _ _ _ _ _ h]; exact hu,
      hp.2.1 u n false fun _ => .inr hne⟩)

theorem logged_stage {L : List Step → Prop} (hexits : 0 ∉ c.exits) (hL : ∀ l, L l → Orderly env v l)
    (h : Triple (act env) .checked (Here strict V (At front)) c
      (fun n s => n = 0 ∧ L (steps s.world)) (Ends (Stopped env v))) :
    Triple (act env) .checked (Here strict V (At front)) (logged c)
      (fun n s => n = 0 ∧ Here strict V (fun w => L (steps w)) s) (Ends (Stopped env v)) := by
  apply Triple.strict_pipe (B := fun w => L (steps w)) hexits (by decide)
    (h.weaken (fun _ hs => hs) (fun _ _ hs => hs) fun _ _ hw => hw.2)
  · intro s o hs
    refine ((quiet_program .tee (by simp)).run (hL _ hs.2.2)).weaken (fun _ ht => ht) ?_
      (fun _ _ hw => hw.2) s o ⟨hs.1, hs.2.1, rfl⟩
    intro n t ht
    have hsteps : steps t.world = steps s.world := ht.2.2.2
    exact ⟨ht.1, by rw [hsteps]; exact hs.2.2⟩
  · intro w w' hgrows hstop
    apply hstop.grows
    apply hgrows.mono
    intro e he
    unfold toStep
    rw [List.mem_singleton.mp he]
    rfl

theorem logged_sub_stage {L : List Step → Prop} (hexits : 0 ∉ c.exits)
    (hL : ∀ l, L l → Orderly env v l)
    (h : Triple (act env) .checked (Here strict V (At front)) c
      (fun n s => n = 0 ∧ L (steps s.world)) (Ends (Stopped env v))) :
    Triple (act env) .checked (Here strict V (At front)) (logged (.sub c))
      (fun n s => n = 0 ∧ Here strict V (fun w => L (steps w)) s) (Ends (Stopped env v)) := by
  apply logged_stage List.not_mem_nil hL
  exact (Triple.strict_sub (B := fun w => L (steps w)) hexits
    (h.weaken (fun _ hs => hs) (fun _ _ hs => hs) fun _ _ hw => hw.2)).weaken (fun _ hs => hs)
      (fun _ _ hs => ⟨hs.1, hs.2.2.2⟩) (fun _ _ hw => hw)

/-! ## Into the source tree -/

theorem enterTree_stage :
    Triple (act env) .checked (Here strict (Known v) (At [])) enterTree
      (fun n s => n = 0 ∧ Here strict (Known v) (fun w => ∃ dir, sourceTree v = some dir ∧
        steps w = [⟨.cd, dir, 0⟩]) s) (Ends (Stopped env v)) := by
  have hcd : Triple (act env) .tested (Here strict (Known v) (At [])) (program .cd)
      (fun n => Here strict (Known v) fun w => steps w = [⟨.cd, (sourceTree v).getD [], n⟩] ∧
        (n = 0 → (sourceTree v).isSome) ∧ (n ≠ 0 → BadUsage v ∨ Excuse w))
      (Ends (Stopped env v)) := by
    apply Triple.tested_run (.inl rfl)
    intro u w n u' rest hu hw h
    rw [act, Option.some_inj, Prod.mk.injEq, Prod.mk.injEq] at h
    rcases h with ⟨hn, rfl, rfl⟩
    have hword : word .cd u = (sourceTree v).getD [] := congrArg (Option.getD · []) hu.2
    have hexcuse : u.KSRC ≠ none → n ≠ 0 → Fatal ⟨.program .cd, u, n, false⟩ :=
      fun hset hne => ⟨hset, hne⟩
    refine ⟨hu, ?_, ?_, ?_⟩
    · rw [steps_snoc, hw, toStep_program rfl hword]
      rfl
    · intro hzero
      rw [← hu.2]
      cases hsrc : u.KSRC with
      | none =>
          rw [hsrc, if_pos rfl] at hn
          omega
      | some dir => rfl
    · intro hne
      by_cases hsrc : u.KSRC = none
      · exact .inl (.inr (.inr (.inr (hu.2 ▸ hsrc))))
      · exact .inr (Excuse.snoc w (hexcuse hsrc hne) _)
  apply Triple.seq (M := Here strict (Known v) fun w => ∃ dir, sourceTree v = some dir ∧
    steps w = [⟨.cd, dir, 0⟩])
  · apply Triple.or hcd
    · apply Triple.exit
      intro s hs
      rcases hs with ⟨n, hn, hs⟩
      refine ⟨Nat.one_ne_zero, hs.2.2.2.2 hn, .inl ?_⟩
      rw [hs.2.2.1]
      exact not_installs_snoc (l := []) nofun nofun
    · intro s hs
      rcases Option.isSome_iff_exists.mp (hs.2.2.2.1 rfl) with ⟨dir, hdir⟩
      refine ⟨hs.1, hs.2.1, dir, hdir, ?_⟩
      rw [hs.2.2.1, hdir]
      rfl
  · intro s o hs
    rcases hs.2.2 with ⟨dir, hdir, hsteps⟩
    have hfront : ¬Installs [⟨.cd, dir, 0⟩] := not_installs_snoc (l := []) nofun nofun
    have hbody : Triple (act env) .checked (Here strict (Known v) (At [⟨.cd, dir, 0⟩]))
        (.seq (program .rm) (logged (.sub (.steps [program .date,
          say "[Logging to file kbuild_log ...]", program .version]))))
        (fun n s => n = 0 ∧ Here strict (Known v) (fun w => steps w = [⟨.cd, dir, 0⟩]) s)
        (Ends (Stopped env v)) := by
      apply (quiet_program .rm (by simp)).seq (.inl hfront)
      apply logged_sub_stage (L := (· = [⟨.cd, dir, 0⟩])) (by decide)
        (fun l hl => by rw [hl]; exact .inl hfront)
      apply (quiet_program .date (by simp)).seq (.inl hfront)
      apply (quiet_echo _).seq (.inl hfront)
      exact ((quiet_program .version (by simp)).run (.inl hfront)).weaken (fun _ hs => hs)
        (fun _ _ hs => ⟨hs.1, hs.2.2.2⟩) (fun _ _ hw => hw)
    exact hbody.weaken (fun _ ht => ht)
      (fun _ _ ht => ⟨ht.1, ht.2.1, ht.2.2.1, dir, hdir, ht.2.2.2⟩) (fun _ _ hw => hw) s o
      ⟨hs.1, hs.2.1, hsteps⟩

/-! ## Tests -/

theorem test_decides {holds : Vars → Bool} {φ : Prop}
    (hφ : ∀ u, V u → (holds u = true ↔ φ)) :
    Triple (act env) .tested (Here strict V (At front)) (test holds)
      (fun n => Here strict (fun u => V u ∧ (n = 0 ↔ φ)) (At front)) R := by
  apply Triple.run
  intro s hs n vars rest h
  cases h
  rw [settle_tested]
  refine ⟨hs.1, ⟨hs.2.1, ?_⟩, ?_⟩
  · rw [← hφ _ hs.2.1]
    cases holds s.vars <;> simp
  · rw [At, steps_snoc, hs.2.2]
    exact List.append_nil front

theorem both_decide {holds holds' : Vars → Bool} {φ ψ : Prop}
    (hφ : ∀ u, V u → (holds u = true ↔ φ)) (hψ : ∀ u, V u → (holds' u = true ↔ ψ)) :
    Triple (act env) .tested (Here strict V (At front)) (.and (test holds) (test holds'))
      (fun n => Here strict (fun u => V u ∧ (n = 0 ↔ φ ∧ ψ)) (At front)) R := by
  apply Triple.and (test_decides hφ)
  · refine (test_decides fun u hu => hψ u hu.1).weaken (fun _ hs => hs) ?_ (fun _ _ hw => hw)
    intro n s hs
    have hfirst : φ := hs.2.1.1.2.mp rfl
    refine ⟨hs.1, ⟨hs.2.1.1.1, ?_⟩, hs.2.2⟩
    rw [hs.2.1.2]
    exact (and_iff_right hfirst).symm
  · intro n s hn hs
    exact ⟨hs.1, ⟨hs.2.1.1, iff_of_false hn fun h => hn (hs.2.1.2.mpr h.1)⟩, hs.2.2⟩

theorem if_stage {φ : Prop} {Q : Nat → Shell Command Vars (List Line) → Prop}
    (htest : Triple (act env) .tested (Here strict V (At front)) c
      (fun n => Here strict (fun u => V u ∧ (n = 0 ↔ φ)) (At front)) R)
    {yes no : Cmd Command}
    (hyes : φ → Triple (act env) .checked (Here strict V (At front)) yes Q R)
    (hno : ¬φ → Triple (act env) .checked (Here strict V (At front)) no Q R) :
    Triple (act env) .checked (Here strict V (At front)) (.ite c yes no) Q R := by
  apply Triple.ite htest
  · intro s o hs
    exact hyes (hs.2.1.2.mp rfl) s o ⟨hs.1, hs.2.1.1, hs.2.2⟩
  · intro s o hs
    rcases hs with ⟨n, hn, hs⟩
    exact hno (fun hφ => hn (hs.2.1.2.mpr hφ)) s o ⟨hs.1, hs.2.1.1, hs.2.2⟩

/-! ## Configuring -/

theorem Needed.or_die {word' : List UInt8} (hp : Needed p) (hne : p ≠ .oldconfig)
    (hword : ∀ u, V u → word p u = word') (message : String)
    (hstop : ∀ w n, n ≠ 0 → steps w = front ++ [⟨p, word', n⟩] → Excuse w → Stopped env v w) :
    Triple (act env) .checked (Here strict V (At front)) (.or (program p) (die message))
      (fun n s => n = 0 ∧ Here strict V (At (front ++ [⟨p, word', 0⟩])) s)
      (Ends (Stopped env v)) := by
  apply tested_or_die
  refine (hp.tested hword hne).weaken (fun _ hs => hs) ?_ (fun _ _ hw => hw)
  intro n s hs
  refine ⟨hs.1, hs.2.1, ?_, fun hn => hstop _ n hn hs.2.2.1 (hs.2.2.2 hn)⟩
  intro hn
  rw [hs.2.2.1, hn]

theorem Needed.and_or_die {word' : List UInt8} (hp : Needed p) (hne : p ≠ .oldconfig)
    (hinst : p ≠ .install) (hfront : ¬Installs front)
    (hword : ∀ u, V u → word p u = word') (message : String)
    (hc : Triple (act env) .tested (Here strict V (At (front ++ [⟨p, word', 0⟩]))) c
      (fun n => Here strict V fun w => steps w = front ++ [⟨p, word', 0⟩] ∧ (n ≠ 0 → Excuse w))
      (Ends (Stopped env v))) :
    Triple (act env) .checked (Here strict V (At front)) (.or (.and (program p) c) (die message))
      (fun n s => n = 0 ∧ Here strict V (At (front ++ [⟨p, word', 0⟩])) s)
      (Ends (Stopped env v)) := by
  have hstop : ∀ w n, steps w = front ++ [⟨p, word', n⟩] → Excuse w → Stopped env v w := by
    intro w n hw hexcuse
    refine ⟨.inr hexcuse, .inl ?_⟩
    rw [hw]
    exact not_installs_snoc hfront hinst
  apply tested_or_die
  apply Triple.and (hp.tested hword hne)
  · refine hc.weaken (fun s hs => ⟨hs.1, hs.2.1, hs.2.2.1⟩) ?_ (fun _ _ hw => hw)
    intro n s hs
    exact ⟨hs.1, hs.2.1, fun _ => hs.2.2.1, fun hn => hstop _ 0 hs.2.2.1 (hs.2.2.2 hn)⟩
  · intro n s hn hs
    exact ⟨hs.1, hs.2.1, fun hzero => absurd hzero hn,
      fun _ => hstop _ n hs.2.2.1 (hs.2.2.2 hn)⟩

theorem configureKernel_stage (hfront : ¬Installs front) :
    Triple (act env) .checked (Here strict V (At front)) configureKernelLocalmodconfig
      (fun n s => n = 0 ∧ steps s.world = front ++ [⟨.lsmod, [], 0⟩, ⟨.localmodconfig, [], 0⟩,
        ⟨.oldconfig, [], 0⟩, ⟨.menuconfig, [], 0⟩, ⟨.scriptsConfig, [], 0⟩])
      (Ends (Stopped env v)) := by
  have h₁ : ¬Installs (front ++ [⟨.lsmod, [], 0⟩]) := not_installs_snoc hfront nofun
  have h₂ := not_installs_snoc (x := ⟨.localmodconfig, [], 0⟩) h₁ nofun
  have h₃ := not_installs_snoc (x := ⟨.oldconfig, [], 0⟩) h₂ nofun
  have h₄ := not_installs_snoc (x := ⟨.menuconfig, [], 0⟩) h₃ nofun
  have hls : Triple (act env) .checked (Here strict V (At (front ++ [⟨.lsmod, [], 0⟩] ++
      [⟨.localmodconfig, [], 0⟩] ++ [⟨.oldconfig, [], 0⟩] ++ [⟨.menuconfig, [], 0⟩])))
      (logged (program .ls)) (fun n s => n = 0 ∧ Here strict V (At (front ++ [⟨.lsmod, [], 0⟩] ++
        [⟨.localmodconfig, [], 0⟩] ++ [⟨.oldconfig, [], 0⟩] ++ [⟨.menuconfig, [], 0⟩])) s)
      (Ends (Stopped env v)) := by
    apply logged_stage (L := (· = _)) List.not_mem_nil (fun l hl => by rw [hl]; exact .inl h₄)
    exact ((quiet_program .ls (by simp)).run (.inl h₄)).weaken (fun _ hs => hs)
      (fun _ _ hs => ⟨hs.1, hs.2.2.2⟩) (fun _ _ hw => hw)
  have hbody : Triple (act env) .checked (Here strict V (At front)) configureKernelLocalmodconfig
      (fun n s => n = 0 ∧ Here strict V (At (front ++ [⟨.lsmod, [], 0⟩] ++
        [⟨.localmodconfig, [], 0⟩] ++ [⟨.oldconfig, [], 0⟩] ++ [⟨.menuconfig, [], 0⟩] ++
          [⟨.scriptsConfig, [], 0⟩])) s) (Ends (Stopped env v)) := by
    apply Triple.strict_call
    apply (needed_program .lsmod (by simp)).seq (fun _ _ => rfl) hfront nofun
    apply (quiet_echo _).seq (.inl h₁)
    apply (needed_program .localmodconfig (by simp)).seq (fun _ _ => rfl) h₁ nofun
    apply (quiet_echo _).seq (.inl h₂)
    apply (needed_program .oldconfig (by simp)).seq (fun _ _ => rfl) h₂ nofun
    apply (quiet_echo _).seq (.inl h₃)
    apply (quiet_program .stty (by simp)).seq (.inl h₃)
    apply Triple.seq (((needed_program .menuconfig (by simp)).and_or_die nofun nofun h₃ (fun _ _ => rfl) _
      (quiet_echo _).tested).weaken (fun _ hs => hs) (fun _ _ hs => hs.2) (fun _ _ hw => hw))
    apply Triple.seq (hls.weaken (fun _ hs => hs) (fun _ _ hs => hs.2) (fun _ _ hw => hw))
    apply (quiet_echo _).seq (.inl h₄)
    apply (quiet_echo _).seq (.inl h₄)
    exact (needed_program .scriptsConfig (by simp)).run (fun _ _ => rfl) h₄ nofun
  refine hbody.weaken (fun _ hs => hs) ?_ (fun _ _ hw => hw)
  intro n s hs
  have hsteps : steps s.world = _ := hs.2.2.2
  refine ⟨hs.1, ?_⟩
  rw [hsteps]
  simp only [List.append_assoc, List.cons_append, List.nil_append]

theorem assign_seq {change : Vars → Vars} (hV : ∀ u, V u → V' (change u))
    (hfront : Orderly env v front)
    (hd : Triple (act env) .checked (Here strict V' (At front)) d Q (Ends (Stopped env v))) :
    Triple (act env) .checked (Here strict V (At front)) (.seq (assign change) d) Q
      (Ends (Stopped env v)) := by
  apply strict_quiet_seq (fun _ _ _ => rfl) _ hfront hd
  intro u w n u' rest hu h
  cases h
  exact ⟨hV u hu, fun hn => absurd rfl hn⟩

theorem Configured.not_installs (h : Configured v l) : ¬Installs l := by
  unfold Installs
  rcases h with ⟨_, rfl⟩ | ⟨_, ⟨n, _, rfl⟩ | ⟨n, rfl⟩⟩ <;> simp

/-- Without `-c`: a `make oldconfig` for want of a configuration, and its status does not matter. -/
theorem skipConfigure_stage (hasks : ¬asksConfig v) :
    Triple (act env) .checked (Here strict V (At front))
      (.or
        (.and (program .noConfig) (.steps [
          say "Fresh kernel (no .config), so running 'make oldconfig'",
          say "[+] make oldconfig",
          program .oldconfig]))
        (.set id))
      (fun n s => n = 0 ∧ ∃ conf, Configured v conf ∧ steps s.world = front ++ conf)
      (Ends (Stopped env v)) := by
  have htest : Triple (act env) .tested (Here strict V (At front)) (program .noConfig)
      (fun n => Here strict V fun w => steps w = front ++ [⟨.noConfig, [], n⟩] ∧
        (False → Excuse w)) (Ends (Stopped env v)) := by
    apply tested_command (fun n => [⟨.noConfig, [], n⟩]) (.inl rfl) (fun _ _ _ _ => rfl)
    intro u w n u' rest hu h
    cases h
    exact ⟨hu, False.elim⟩
  have hold : Triple (act env) .tested
      (Here strict V (At (front ++ [⟨.noConfig, [], 0⟩]))) (program .oldconfig)
      (fun n => Here strict V fun w => steps w = front ++ [⟨.noConfig, [], 0⟩] ++
        [⟨.oldconfig, [], n⟩] ∧ (False → Excuse w)) (Ends (Stopped env v)) := by
    apply tested_command (fun n => [⟨.oldconfig, [], n⟩]) (.inl rfl) (fun _ _ _ _ => rfl)
    intro u w n u' rest hu h
    cases h
    exact ⟨hu, False.elim⟩
  have hecho : ∀ text, Triple (act env) .tested
      (Here strict V (At (front ++ [⟨.noConfig, [], 0⟩]))) (say text)
      (fun _ => Here strict V (At (front ++ [⟨.noConfig, [], 0⟩]))) (Ends (Stopped env v)) :=
    fun _ => (quiet_echo _).tested.weaken (fun _ hs => hs)
      (fun _ _ hs => ⟨hs.1, hs.2.1, hs.2.2.1⟩) (fun _ _ hw => hw)
  apply Triple.or (N := fun _ s => ∃ conf, Configured v conf ∧ steps s.world = front ++ conf)
  · apply Triple.and htest
    · refine (((hecho _).seq ((hecho _).seq hold)).weaken
        (fun s hs => ⟨hs.1, hs.2.1, hs.2.2.1⟩) ?_ (fun _ _ hw => hw))
      intro n s hs
      refine ⟨_, .inr ⟨hasks, .inr ⟨n, rfl⟩⟩, ?_⟩
      rw [hs.2.2.1, List.append_assoc]
      rfl
    · intro n s hn hs
      exact ⟨_, .inr ⟨hasks, .inl ⟨n, hn, rfl⟩⟩, hs.2.2.1⟩
  · apply Triple.set
    intro s hs
    rcases hs with ⟨_, _, hs⟩
    exact ⟨rfl, hs⟩
  · intro s hs
    exact ⟨rfl, hs⟩

theorem configure_stage (hfront : ¬Installs front) :
    Triple (act env) .checked (Here strict (Known v) (At front)) configure
      (fun n s => n = 0 ∧ Here strict (Known v) (fun w => ∃ conf, Configured v conf ∧
        steps w = front ++ conf) s) (Ends (Stopped env v)) := by
  have hL : ∀ l, (∃ conf, Configured v conf ∧ l = front ++ conf) → Orderly env v l := by
    intro l hl
    rcases hl with ⟨conf, hconf, rfl⟩
    exact .inl (not_installs_append.mpr ⟨hfront, hconf.not_installs⟩)
  apply if_stage (φ := asksConfig v) (both_decide (φ := 2 ≤ v.args.length)
    (ψ := v.args.headD [] = ascii "-c") _ _)
  · intro hasks
    have hbody : Triple (act env) .checked (Here strict (Known v) (At front))
        configureKernelLocalmodconfig (fun n s => n = 0 ∧ ∃ conf, Configured v conf ∧
          steps s.world = front ++ conf) (Ends (Stopped env v)) :=
      (configureKernel_stage hfront).weaken (fun _ hs => hs)
        (fun n s hs => ⟨hs.1, _, .inl ⟨hasks, rfl⟩, hs.2⟩) (fun _ _ hw => hw)
    apply assign_seq _ (.inl hfront) (logged_stage (L := fun l => ∃ conf, Configured v conf ∧
      l = front ++ conf) (by decide) hL hbody)
    exact fun u hu => hu
  · intro hasks
    apply logged_sub_stage (L := fun l => ∃ conf, Configured v conf ∧ l = front ++ conf)
      (by decide) hL
    exact (quiet_echo _).seq (.inl hfront) (skipConfigure_stage hasks)
  · intro u hu
    rw [hu.1]
    exact decide_eq_true_iff
  · intro u hu
    rw [hu.1]
    exact decide_eq_true_iff

/-! ## Building -/

theorem take_threeHalves (n : Nat) :
    (threeHalves n).take ((threeHalves n).length - 2) = decimal (3 * n / 2) := by
  have hlength : (if n % 2 = 0 then ascii ".0" else ascii ".5").length = 2 := by
    split <;> decide
  unfold threeHalves
  apply List.take_left'
  rw [List.length_append, hlength, Nat.add_sub_cancel]

theorem Built.not_installs (h : Built env l) : ¬Installs l := by
  unfold Installs
  rcases h with ⟨m, n, _, _, rfl⟩
  simp

theorem jobs_stage {m : Nat} (hfront : ¬Installs front) :
    Triple (act env) .checked (Here strict (fun u => u.nproc = m) (At front))
      (.ite (test fun v => v.nproc ≤ 64)
        (program .twiceNproc)
        (.steps [
          program .bc,
          assign fun v => { v with JOBS := v.JOBS.take (v.JOBS.length - 2) }]))
      (fun n s => n = 0 ∧
        Here strict (fun u => u.JOBS = decimal (jobs env m)) (At front) s)
      (Ends (Stopped env v)) := by
  apply if_stage (φ := m ≤ 64) (test_decides _)
  · intro hsmall
    apply strict_quiet (fun _ _ _ => rfl) _ (.inl hfront)
    intro u w n u' rest hu h
    cases h
    exact ⟨by rw [jobs, if_pos hsmall], fun hn => hn⟩
  · intro hlarge
    have hstrip : Triple (act env) .checked
        (Here strict (fun u => u.JOBS = threeHalves m) (At front))
        (assign fun v => { v with JOBS := v.JOBS.take (v.JOBS.length - 2) })
        (fun n s => n = 0 ∧ Here strict (fun u => u.JOBS = decimal (jobs env m)) (At front) s)
        (Ends (Stopped env v)) := by
      apply strict_quiet (fun _ _ _ => rfl) _ (.inl hfront)
      intro u w n u' rest hu h
      cases h
      refine ⟨?_, fun hn => absurd rfl hn⟩
      change u.JOBS.take (u.JOBS.length - 2) = decimal (jobs env m)
      rw [jobs, if_neg hlarge, hu]
      exact take_threeHalves m
    apply strict_quiet_seq (fun _ _ _ => rfl) _ (.inl hfront) hstrip
    intro u w n u' rest hu h
    cases h
    exact ⟨congrArg threeHalves hu, fun hn => hn⟩
  · intro u hu
    rw [hu]
    exact decide_eq_true_iff

theorem nproc_run (hfront : Orderly env v front) :
    Triple (act env) .checked (Here strict V (At front)) (program .nproc)
      (fun _ => Here strict (fun u => env.Shows u.nproc) (At front)) (Ends (Stopped env v)) := by
  have h : Triple (act env) .checked (Here strict V (At front)) (program .nproc)
      (fun n s => n = 0 ∧ Here strict (fun u => env.Shows u.nproc) (At front) s)
      (Ends (Stopped env v)) := by
    apply strict_quiet (fun _ _ _ => rfl) _ hfront
    intro u w n u' rest hu h
    cases h
    refine ⟨?_, fun hn => absurd rfl hn⟩
    by_cases hstatus : (env.react (.program .nproc) u w).1 = 0
    · exact .inl (if_pos hstatus)
    · exact .inr ⟨if_neg hstatus, u, w, hstatus⟩
  exact h.weaken (fun _ hs => hs) (fun _ _ hs => hs.2) (fun _ _ hw => hw)

theorem image_stage (hfront : ¬Installs front) (message : String) :
    Triple (act env) .checked (Here strict V (At front))
      (.or (.and (program .noImage) (die message)) (.set id))
      (fun n s => n = 0 ∧ ∃ m, m ≠ 0 ∧ steps s.world = front ++ [⟨.noImage, [], m⟩])
      (Ends (Stopped env v)) := by
  have htest : Triple (act env) .tested (Here strict V (At front)) (program .noImage)
      (fun n => Here strict V fun w => steps w = front ++ [⟨.noImage, [], n⟩] ∧
        (n = 0 → Excuse w)) (Ends (Stopped env v)) := by
    apply tested_command (fun n => [⟨.noImage, [], n⟩]) (.inl rfl) (fun _ _ _ _ => rfl)
    intro u w n u' rest hu h
    cases h
    exact ⟨hu, fun hn => hn⟩
  apply Triple.or (N := fun n s => n ≠ 0 ∧ steps s.world = front ++ [⟨.noImage, [], n⟩])
  · apply Triple.and htest
    · apply die_stops
      intro s hs
      refine ⟨.inr (hs.2.2.2 rfl), .inl ?_⟩
      rw [hs.2.2.1]
      exact not_installs_snoc hfront nofun
    · exact fun n s hn hs => ⟨hn, hs.2.2.1⟩
  · apply Triple.set
    intro s hs
    rcases hs with ⟨m, _, hs⟩
    exact ⟨rfl, m, hs⟩
  · exact fun s hs => absurd rfl hs.1

/-- The build, once it is known how many processors the variable shows. -/
theorem make_stage {m : Nat} (hshows : env.Shows m) (hfront : ¬Installs front) :
    Triple (act env) .checked (Here strict (fun u => u.nproc = m) (At front))
      (.seq (.ite (test fun v => v.nproc ≤ 64)
          (program .twiceNproc)
          (.steps [
            program .bc,
            assign fun v => { v with JOBS := v.JOBS.take (v.JOBS.length - 2) }]))
        (.steps [
          say "",
          program .date,
          echo fun v => ascii "[+] time make -j" ++ v.JOBS,
          .or (.and (program .make) (.steps [say "", program .date]))
            (die "make <kernel> *failed*"),
          .or
            (.and (program .noImage)
              (die "make <kernel> *failed*? arch/x86/boot/bzImage not generated"))
            (.set id)]))
      (fun n s => n = 0 ∧ ∃ built, Built env built ∧ steps s.world = front ++ built)
      (Ends (Stopped env v)) := by
  have hmake : ¬Installs (front ++ [⟨.make, decimal (jobs env m), 0⟩]) :=
    not_installs_snoc hfront nofun
  have hjobs : ∀ u : Vars, u.JOBS = decimal (jobs env m) →
      word .make u = decimal (jobs env m) := fun u hu => hu
  have htail : Triple (act env) .tested (Here strict (fun u => u.JOBS = decimal (jobs env m))
        (At (front ++ [⟨.make, decimal (jobs env m), 0⟩])))
      (.steps [say "", program .date])
      (fun n => Here strict (fun u => u.JOBS = decimal (jobs env m)) fun w =>
        steps w = front ++ [⟨.make, decimal (jobs env m), 0⟩] ∧ (n ≠ 0 → Excuse w))
      (Ends (Stopped env v)) :=
    Triple.seq ((quiet_echo _).tested.weaken (fun _ hs => hs)
      (fun _ _ hs => ⟨hs.1, hs.2.1, hs.2.2.1⟩) (fun _ _ hw => hw))
      (quiet_program .date (by simp)).tested
  apply Triple.seq ((jobs_stage hfront).weaken (fun _ hs => hs) (fun _ _ hs => hs.2)
    (fun _ _ hw => hw))
  apply (quiet_echo _).seq (.inl hfront)
  apply (quiet_program .date (by simp)).seq (.inl hfront)
  apply (quiet_echo _).seq (.inl hfront)
  apply Triple.seq (((needed_program .make (by simp)).and_or_die nofun nofun hfront hjobs _
    htail).weaken (fun _ hs => hs) (fun _ _ hs => hs.2) (fun _ _ hw => hw))
  refine (image_stage hmake _).weaken (fun _ hs => hs) ?_ (fun _ _ hw => hw)
  intro n s hs
  rcases hs with ⟨hn, k, hk, hsteps⟩
  refine ⟨hn, _, ⟨m, k, hshows, hk, rfl⟩, ?_⟩
  rw [hsteps, List.append_assoc]
  rfl

theorem buildKernel_stage (hfront : ¬Installs front) :
    Triple (act env) .checked (Here strict V (At front)) (logged buildKernel)
      (fun n s => n = 0 ∧ Here strict V (fun w => ∃ built, Built env built ∧
        steps w = front ++ built) s) (Ends (Stopped env v)) := by
  apply logged_stage (L := fun l => ∃ built, Built env built ∧ l = front ++ built) (by decide)
  · intro l hl
    rcases hl with ⟨built, hbuilt, rfl⟩
    exact .inl (not_installs_append.mpr ⟨hfront, hbuilt.not_installs⟩)
  · apply Triple.call
    apply Triple.seq (nproc_run (.inl hfront))
    intro s o hs ho
    refine ((make_stage hs.2.1 hfront).weaken (fun _ ht => ht) ?_ (fun _ _ hw => hw)) s o
      ⟨hs.1, rfl, hs.2.2⟩ ho
    intro n t ht
    rw [ht.1, settle_zero]
    exact ⟨rfl, ht.2⟩

/-! ## Installing -/

theorem Replied.not_installs (h : Replied l) : ¬Installs l := by
  unfold Installs
  rcases h with rfl | ⟨n, _, rfl⟩ <;> simp

/-- A shell without `set -e`, with the reply in `$?`. -/
theorem reply_run :
    Triple (act env) .checked (Here ⟨false, true⟩ V (At front)) (program .getYnReply)
      (fun n => Here ⟨false, true⟩ (fun u => u.last = n) (At (front ++ [⟨.getYnReply, [], n⟩]))) R := by
  apply Triple.tested_run (.inr rfl)
  intro u w n u' rest hu hw h
  rw [act, Option.map_eq_some_iff] at h
  rcases h with ⟨ret, _, h⟩
  cases h
  refine ⟨rfl, ?_⟩
  rw [At, steps_snoc, hw]
  rfl

theorem stat_run {n : Nat} :
    Triple (act env) .checked (Here ⟨false, true⟩ (fun u => u.last = n) (At front))
      (assign fun v => { v with stat := v.last })
      (fun _ => Here ⟨false, true⟩ (fun u => u.stat = n) (At front)) R := by
  apply Triple.tested_run (.inr rfl)
  intro u w m u' rest hu hw h
  cases h
  refine ⟨hu, ?_⟩
  rw [At, steps_snoc, hw]
  exact List.append_nil front

theorem modules_stage {n : Nat} (hfront : ¬Installs front) :
    Triple (act env) .checked
      (Here strict (fun u => u.stat = n) (At (front ++ [⟨.getYnReply, [], n⟩])))
      (.ite (test fun v => v.stat = 0) installModules
        (say "[-] Skipping kernel modules install step"))
      (fun _ s => ∃ replied, Replied replied ∧
        Here strict (fun _ => True) (At (front ++ replied)) s) (Ends (Stopped env v)) := by
  have hasked : ¬Installs (front ++ [⟨.getYnReply, [], n⟩]) := not_installs_snoc hfront nofun
  apply if_stage (φ := n = 0) (test_decides _)
  · intro hn
    subst hn
    refine Triple.weaken (fun _ hs => hs) ?_ (fun _ _ hw => hw) (Triple.strict_call
      (Quiet.seq (quiet_echo _) (.inl hasked) (Quiet.seq (quiet_echo _) (.inl hasked)
        ((needed_program .modulesInstall (by simp)).or_die nofun (fun _ _ => rfl) _ ?_))))
    · intro n s hs
      refine ⟨_, .inl rfl, hs.2.1, trivial, ?_⟩
      have hsteps : steps s.world = _ := hs.2.2.2
      rw [At, hsteps, List.append_assoc]
      rfl
    · intro w n _ hw hexcuse
      refine ⟨.inr hexcuse, .inl ?_⟩
      rw [hw]
      exact not_installs_snoc hasked nofun
  · intro hn
    refine ((quiet_echo _).run (.inl hasked)).weaken (fun _ hs => hs) ?_ (fun _ _ hw => hw)
    exact fun m s hs => ⟨_, .inr ⟨n, hn, rfl⟩, hs.2.1, trivial, hs.2.2.2⟩
  · intro u hu
    rw [hu]
    exact decide_eq_true_iff

theorem install_stage (hplan : Plan env v front) (hfront : ¬Installs front) (message : String) :
    Triple (act env) .checked (Here strict V (At front))
      (.seq (say "") (.seq (say "[+] sudo make install") (.seq (.or (program .install)
        (die "*Failed*")) (.seq (say message) (program .date)))))
      (fun n s => n = 0 ∧ steps s.world = front ++ [⟨.install, [], 0⟩]) (Ends (Stopped env v)) := by
  have hinstalled : Orderly env v (front ++ [⟨.install, [], 0⟩]) := .inr ⟨_, 0, hplan, rfl⟩
  apply (quiet_echo _).seq (.inl hfront)
  apply (quiet_echo _).seq (.inl hfront)
  refine Triple.seq (((needed_program .install (by simp)).or_die nofun (fun _ _ => rfl) _ ?_).weaken
    (fun _ hs => hs) (fun _ _ hs => hs.2) (fun _ _ hw => hw)) ?_
  · intro w n _ hw hexcuse
    exact ⟨.inr hexcuse, .inr ⟨_, n, hplan, hw⟩⟩
  · apply (quiet_echo _).seq hinstalled
    exact ((quiet_program .date (by simp)).run hinstalled).weaken (fun _ hs => hs)
      (fun _ _ hs => ⟨hs.1, hs.2.2.2⟩) (fun _ _ hw => hw)

theorem finish_stage (hplan : ∀ replied, Replied replied → Plan env v (front ++ replied))
    (hfront : ¬Installs front) :
    Triple (act env) .checked (Here strict V (At front)) (logged (.sub finish))
      (fun n s => n = 0 ∧ Here strict V (fun w => Installed env v (steps w)) s)
      (Ends (Stopped env v)) := by
  apply logged_sub_stage (L := Installed env v) (by decide)
  · intro l hl
    rcases hl with ⟨plan, hplan, rfl⟩
    exact .inr ⟨plan, 0, hplan, rfl⟩
  · apply (quiet_echo _).seq (.inl hfront)
    apply Triple.seq (M := Here ⟨false, true⟩ V (At front))
    · apply Triple.set
      intro s hs
      exact ⟨by rw [hs.1]; rfl, hs.2⟩
    apply Triple.seq (M := fun s => ∃ n, Here ⟨false, true⟩ (fun u => u.last = n)
      (At (front ++ [⟨.getYnReply, [], n⟩])) s)
    · exact reply_run.weaken (fun _ hs => hs) (fun n _ hs => ⟨n, hs⟩) (fun _ _ hw => hw)
    apply Triple.exists_pre
    intro n
    apply Triple.seq stat_run
    apply Triple.seq (M := Here strict (fun u => u.stat = n)
      (At (front ++ [⟨.getYnReply, [], n⟩])))
    · apply Triple.set
      intro s hs
      exact ⟨by rw [hs.1]; rfl, hs.2⟩
    apply Triple.seq (modules_stage hfront)
    intro s o hs ho
    rcases hs with ⟨replied, hreplied, hs⟩
    have hclean := not_installs_append.mpr ⟨hfront, hreplied.not_installs⟩
    exact (install_stage (hplan replied hreplied) hclean _).weaken (fun _ ht => ht)
      (fun n t ht => ⟨ht.1, _, hplan replied hreplied, ht.2⟩) (fun _ _ hw => hw) s o hs ho

end KernelTrg.Kbuild
