import KernelTrg.Kbuild.Stages

/-!
# Whole runs of the build script

However the programs behave, the kernel is installed as the last step of a whole plan, each step of
which has succeeded; the script fails only where its parameters or a program give it cause, and
where nothing does it ends with the kernel installed.
-/

namespace KernelTrg.Kbuild

open Bytes Errexit

variable {env : Env} {v u : Vars} {w w' : World} {l front : List Step} {ctx : Context}
  {c d : Cmd Command} {V V' : Vars → Prop} {k : Command} {p : Program}
  {Q : Nat → Shell Command Vars (List Line) → Prop} {R : Nat → World → Prop}

/-! ## The parameters -/

def Helps (v : Vars) : Prop := v.args.headD [] = ascii "-h"

def Result (env : Env) (v : Vars) (n : Nat) (w : World) : Prop :=
  (n ≠ 0 → Stopped env v w) ∧
    (n = 0 → Helps v ∧ ¬Installs (steps w) ∨ Installed env v (steps w))

theorem result_of_ends {n : Nat} (h : Ends (Stopped env v) n w) : Result env v n w :=
  ⟨fun _ => h.2, fun hn => absurd hn h.1⟩

theorem weaken_result {P : Shell Command Vars (List Line) → Prop}
    (h : Triple (act env) ctx P c Q (Ends (Stopped env v))) :
    Triple (act env) ctx P c Q (Result env v) :=
  h.weaken (fun _ hs => hs) (fun _ _ hs => hs) fun _ _ hw => result_of_ends hw

theorem not_installs_nil : ¬Installs [] := nofun

theorem usage_exit {n : Nat} (hbad : n ≠ 0 → BadUsage v) (hhelp : n = 0 → Helps v) :
    Triple (act env) .checked (Here strict V (At [])) (.seq usage (.exit n)) Q (Result env v) := by
  apply Triple.seq (M := Here strict V (At []))
  · exact weaken_result ((Triple.strict_call ((quiet_echo _).run (.inl not_installs_nil))).weaken
      (fun _ hs => hs) (fun _ _ hs => hs.2) (fun _ _ hw => hw))
  · apply Triple.exit
    intro s hs
    have hclean : ¬Installs (steps s.world) := by
      rw [hs.2.2]
      exact not_installs_nil
    exact ⟨fun hn => ⟨.inl (hbad hn), .inl hclean⟩, fun hn => .inl ⟨hhelp hn, hclean⟩⟩

theorem and_stage {P : Prop} {holds : Vars → Bool} (hP : ∀ u, V u → (holds u = true ↔ P))
    (hyes : P → Triple (act env) .checked (Here strict V (At front)) d Q R)
    (hno : ¬P → ∀ n s, Here strict V (At front) s → Q n s) :
    Triple (act env) .checked (Here strict V (At front)) (.and (test holds) d) Q R := by
  apply Triple.and (test_decides hP)
  · intro s o hs
    exact hyes (hs.2.1.2.mp rfl) s o ⟨hs.1, hs.2.1.1, hs.2.2⟩
  · intro n s hn hs
    exact hno (fun h => hn (hs.2.1.2.mpr h)) n s ⟨hs.1, hs.2.1.1, hs.2.2⟩

/-- The variables in front of the parameters' processing, but for `KSRC`. -/
def Given (v : Vars) (ksrc : Option (List UInt8)) (u : Vars) : Prop :=
  u.args = v.args ∧ u.ARCH = v.ARCH ∧ u.KSRC = ksrc

theorem ksrc_stage (k : Nat) (ksrc : Option (List UInt8)) :
    Triple (act env) .checked (Here strict (Given v ksrc) (At []))
      (.and (test fun v => v.args.length = k + 1) (assign fun v => { v with KSRC := v.args[k]? }))
      (fun _ => Here strict (Given v (if v.args.length = k + 1 then v.args[k]? else ksrc)) (At []))
      (Ends (Stopped env v)) := by
  apply and_stage (P := v.args.length = k + 1)
  · intro u hu
    rw [hu.1]
    exact decide_eq_true_iff
  · intro hk
    rw [if_pos hk]
    have h : Triple (act env) .checked (Here strict (Given v ksrc) (At []))
        (assign fun v => { v with KSRC := v.args[k]? })
        (fun n s => n = 0 ∧ Here strict (Given v v.args[k]?) (At []) s)
        (Ends (Stopped env v)) := by
      apply strict_quiet (fun _ _ _ => rfl) _ (.inl not_installs_nil)
      intro u w n u' rest hu h
      cases h
      exact ⟨⟨hu.1, hu.2.1, by rw [← hu.1]⟩, fun hn => absurd rfl hn⟩
    exact h.weaken (fun _ hs => hs) (fun _ _ hs => hs.2) (fun _ _ hw => hw)
  · intro hk n s hs
    rw [if_neg hk]
    exact hs

theorem sourceTree_eq (v : Vars) :
    (if v.args.length = 2 then v.args[1]? else if v.args.length = 1 then v.args[0]? else v.KSRC) =
      sourceTree v := by
  unfold sourceTree
  match v.args with
  | [] => rfl
  | [_] => rfl
  | [_, _] => rfl
  | _ :: _ :: _ :: _ => simp

theorem skip_stage {P : Shell Command Vars (List Line) → Prop} :
    Triple (act env) .checked P (.set id) (fun _ => P) R :=
  Triple.set fun _ hs => hs

theorem processArgs_stage :
    Triple (act env) .checked (Here strict (Given v v.KSRC) (At [])) processArgs
      (fun _ => Here strict (Known v) (At [])) (Result env v) := by
  have hnil : Orderly env v [] := .inl not_installs_nil
  have hname : Triple (act env) .checked (Here strict (Given v v.KSRC) (At []))
      (program .basename) (fun n s => n = 0 ∧ Here strict (Given v v.KSRC) (At []) s)
      (Ends (Stopped env v)) := by
    apply strict_quiet (fun _ _ _ => rfl) _ hnil
    intro u w n u' rest hu h
    cases h
    exact ⟨hu, fun hn => hn⟩
  have hconf : Triple (act env) .checked (Here strict (Given v v.KSRC) (At []))
      (assign fun v => { v with CONFIGURE := 0 })
      (fun n s => n = 0 ∧ Here strict (Given v v.KSRC) (At []) s) (Ends (Stopped env v)) := by
    apply strict_quiet (fun _ _ _ => rfl) _ hnil
    intro u w n u' rest hu h
    cases h
    exact ⟨hu, fun hn => absurd rfl hn⟩
  apply Triple.seq (weaken_result (hname.weaken (fun _ hs => hs) (fun _ _ hs => hs.2)
    fun _ _ hw => hw))
  apply Triple.seq (weaken_result (hconf.weaken (fun _ hs => hs) (fun _ _ hs => hs.2)
    fun _ _ hw => hw))
  apply Triple.seq (M := Here strict (Given v v.KSRC) (At []))
  · apply and_stage (P := v.args.length < 1)
    · intro u hu
      rw [hu.1]
      exact decide_eq_true_iff
    · intro hlen
      exact usage_exit (fun _ => .inl (List.length_eq_zero_iff.mp (by omega))) nofun
    · exact fun _ _ _ hs => hs
  apply Triple.seq (M := Here strict (Given v v.KSRC) (At []))
  · apply if_stage (both_decide (φ := v.ARCH ≠ []) (ψ := v.ARCH ≠ ascii "x86") _ _)
    · intro harch
      have hsay : ∀ text, Triple (act env) .checked (Here strict (Given v v.KSRC) (At []))
          (echo text) (fun _ => Here strict (Given v v.KSRC) (At [])) (Result env v) := fun text =>
        weaken_result (((quiet_echo text).run hnil).weaken (fun _ hs => hs) (fun _ _ hs => hs.2)
          fun _ _ hw => hw)
      refine Triple.seq (hsay _) (Triple.seq (hsay _) (Triple.exit ?_))
      intro s hs
      refine ⟨fun _ => ⟨.inl (.inr (.inr (.inl harch))), .inl ?_⟩, nofun⟩
      rw [hs.2.2]
      exact not_installs_nil
    · exact fun _ => skip_stage
    · intro u hu
      rw [hu.2.1]
      exact decide_eq_true_iff
    · intro u hu
      rw [hu.2.1]
      exact decide_eq_true_iff
  apply Triple.seq (M := Here strict (Given v v.KSRC) (At []))
  · apply if_stage (both_decide (φ := 1 ≤ v.args.length) (ψ := Helps v) _ _)
    · intro hhelp
      exact usage_exit nofun fun _ => hhelp.2
    · exact fun _ => skip_stage
    · intro u hu
      rw [hu.1]
      exact decide_eq_true_iff
    · intro u hu
      rw [hu.1]
      exact decide_eq_true_iff
  apply Triple.seq (weaken_result (ksrc_stage 0 v.KSRC))
  apply Triple.seq (weaken_result (ksrc_stage 1 _))
  rw [sourceTree_eq]
  apply if_stage (both_decide (φ := v.args.length < 2) (ψ := v.args.headD [] = ascii "-c") _ _)
  · intro hask
    refine usage_exit (fun _ => ?_) nofun
    cases hargs : v.args with
    | nil => exact .inl hargs
    | cons a as =>
        rw [hargs] at hask
        cases as with
        | nil => exact .inr (.inl (by rw [hargs, ← hask.2]; rfl))
        | cons b bs => exact absurd hask.1 (by simp)
  · intro _
    exact (skip_stage (R := Result env v)).weaken (fun _ hs => hs)
      (fun _ _ hs => ⟨hs.1, ⟨hs.2.1.1, hs.2.1.2.2⟩, hs.2.2⟩) (fun _ _ hw => hw)
  · intro u hu
    rw [hu.1]
    exact decide_eq_true_iff
  · intro u hu
    rw [hu.1]
    exact decide_eq_true_iff

/-! ## Whole runs -/

theorem script_result (input : List Line) :
    Triple (act env) .checked (fun s => s.vars = v ∧ s.world = ⟨[], input⟩) script
      (fun _ _ => False) (Result env v) := by
  apply Triple.seq (M := Here strict (Given v v.KSRC) (At []))
  · apply Triple.set
    intro s hs
    refine ⟨rfl, ?_, ?_⟩
    · rw [hs.1]
      exact ⟨rfl, rfl, rfl⟩
    · rw [hs.2]
      rfl
  apply Triple.seq processArgs_stage
  apply Triple.seq (weaken_result (enterTree_stage.weaken (fun _ hs => hs) (fun _ _ hs => hs.2)
    fun _ _ hw => hw))
  intro s o hs
  rcases hs.2.2 with ⟨dir, hdir, hentered⟩
  have hfront : ¬Installs [⟨.cd, dir, 0⟩] := not_installs_snoc not_installs_nil nofun
  have hrest : Triple (act env) .checked (Here strict (Known v) (At [⟨.cd, dir, 0⟩]))
      (.seq configure (.seq (logged buildKernel) (.seq (logged (.sub finish)) (.exit 0))))
      (fun _ _ => False) (Result env v) := by
    apply Triple.seq (weaken_result ((configure_stage hfront).weaken (fun _ ht => ht)
      (fun _ _ ht => ht.2) fun _ _ hw => hw))
    intro s o hs
    rcases hs.2.2 with ⟨conf, hconf, hsteps⟩
    have hfront' := not_installs_append.mpr ⟨hfront, hconf.not_installs⟩
    refine Triple.seq (weaken_result ((buildKernel_stage hfront').weaken (fun _ ht => ht)
      (fun _ _ ht => ht.2) fun _ _ hw => hw)) ?_ s o ⟨hs.1, hs.2.1, hsteps⟩
    intro s o hs
    rcases hs.2.2 with ⟨built, hbuilt, hsteps⟩
    have hfront'' := not_installs_append.mpr ⟨hfront', hbuilt.not_installs⟩
    refine Triple.seq (weaken_result ((finish_stage (fun replied hreplied =>
      ⟨dir, conf, built, replied, hdir, hconf, hbuilt, hreplied, rfl⟩) hfront'').weaken
        (fun _ ht => ht) (fun _ _ ht => ht.2) fun _ _ hw => hw)) ?_ s o ⟨hs.1, hs.2.1, hsteps⟩
    exact Triple.exit fun t ht => ⟨fun hn => absurd rfl hn, fun _ => .inr ht.2.2⟩
  exact hrest s o ⟨hs.1, hs.2.1, hentered⟩

theorem kbuild_result {input : List Line} {n : Nat} (h : kbuild env v input = some (n, w)) :
    Result env v n w := by
  rcases Option.map_eq_some_iff.mp h with ⟨o, ho, hend⟩
  cases hend
  have hscript : Triple (act env) .checked (fun s => s.vars = v ∧ s.world = ⟨[], input⟩) script
      (fun _ _ => False) (Result env v) := script_result input
  have hsat := hscript _ _ ⟨rfl, rfl⟩ ho
  cases o with
  | done m s => exact hsat.elim
  | exited m w => exact hsat

/-- Where an untested command fails the script ends, with its status. -/
theorem kbuild_not_failed {input : List Line} (h : kbuild env v input = some (0, w)) :
    ¬Failed w := by
  intro hfailed
  rcases Option.map_eq_some_iff.mp h with ⟨o, ho, hend⟩
  have hw : o.world = w := congrArg Prod.snd hend
  have hstatus : o.status = 0 := congrArg Prod.fst hend
  rw [← hw] at hfailed
  rcases exec_failed (by simp [Failed]) ho hfailed with ⟨m, w', rfl, hne⟩
  exact hne hstatus

/-- However its programs behave, a script that ends with 0 has only helped, or has installed the
kernel behind a whole plan, without a failure that it does not test; one that ends with another
status has cause to, and has not installed anything before a whole plan was done. -/
theorem kbuild_installs_last {input : List Line} {n : Nat} (h : kbuild env v input = some (n, w)) :
    (n = 0 → ¬Failed w ∧ (Helps v ∧ ¬Installs (steps w) ∨ Installed env v (steps w))) ∧
      (n ≠ 0 → (BadUsage v ∨ Excuse w) ∧ Orderly env v (steps w)) := by
  have hresult := kbuild_result h
  refine ⟨?_, hresult.1⟩
  intro hn
  subst hn
  exact ⟨kbuild_not_failed h, hresult.2 rfl⟩

def unconfigured : Env where
  name := ascii "kbuild.sh"
  nproc := 4
  react k _ w :=
    (match k with
      | .program .oldconfig => 2
      | .program .noImage => 1
      | _ => 0, w.rest)

def refusal : Line := ⟨ascii "n", by decide, by decide⟩

/-- The kernel is installed all the same. -/
theorem kbuild_installs_unconfigured :
    let v : Vars := ⟨[ascii "linux"], [], none, [], 0, 0, [], 0, 0⟩
    ∃ w, kbuild unconfigured v [refusal] = some (0, w) ∧ ¬Failed w ∧
      (Helps v ∧ ¬Installs (steps w) ∨ Installed unconfigured v (steps w)) := by
  intro v
  have hstatus : (kbuild unconfigured v [refusal]).map Prod.fst = some 0 := by decide +kernel
  rcases Option.map_eq_some_iff.mp hstatus with ⟨⟨n, w⟩, h, hn⟩
  have hzero : n = 0 := hn
  subst hzero
  exact ⟨w, h, (kbuild_installs_last h).1 rfl⟩

/-- Programs that succeed where the script needs it, and a test that finds the image. -/
def Env.Succeeds (env : Env) : Prop :=
  ∀ u w, (∀ text, (env.react (.echo text) u w).1 = 0) ∧
    (env.react (.program .noImage) u w).1 ≠ 0 ∧
    ∀ p, p ≠ .noImage → p ≠ .noConfig → p ≠ .getYnReply → (env.react (.program p) u w).1 = 0

/-- What the programs leave of the input still has a reply that `get_yn_reply` knows. -/
def Env.KeepsReply (env : Env) (I : List Line → Prop) : Prop :=
  (∀ k u w, I w.rest → I (env.react k u w).2) ∧ ∀ l, I l → ∃ r ∈ replies l, (answer r).isSome

theorem act_returns {I : List Line → Prop} (hI : env.KeepsReply I) : Returns (act env) c I := by
  intro k _ u w hw
  unfold act
  split
  case h_5 =>
      rcases Option.isSome_iff_exists.mp (List.findSome?_isSome_iff.mpr (hI.2 _ hw))
        with ⟨ret, hret⟩
      exact ⟨ret, _, _, Option.map_eq_some_iff.mpr ⟨ret, hret, rfl⟩, hI.1 _ _ _ hw⟩
  all_goals exact ⟨_, _, _, rfl, by first | exact hw | exact hI.1 _ _ _ hw⟩

theorem act_not_fatal (henv : env.Succeeds) {u' : Vars} {n : Nat} {rest : List Line}
    (h : act env k u w = some (n, u', rest)) (b : Bool) : ¬Fatal ⟨k, u, n, b⟩ := by
  have hrun := henv u w
  cases k with
  | echo text =>
      cases h
      exact fun hfatal => hfatal (hrun.1 text)
  | test holds => exact id
  | assign change => exact id
  | program p =>
      cases p
      case cd =>
          cases h
          intro hfatal
          have hstatus := hfatal.2
          rw [if_neg hfatal.1] at hstatus
          exact hstatus (hrun.2.2 .cd nofun nofun nofun)
      case noImage =>
          cases h
          exact hrun.2.1
      case oldconfig =>
          cases h
          exact fun hfatal => hfatal.2 (hrun.2.2 .oldconfig nofun nofun nofun)
      case noConfig => exact id
      case getYnReply => exact id
      case nproc =>
          cases h
          exact fun hfatal => hfatal rfl
      all_goals
        cases h
        exact fun hfatal => hfatal (hrun.2.2 _ nofun nofun nofun)

def wellBehaved : Env where
  name := ascii "kbuild.sh"
  nproc := 80
  react k _ w :=
    (match k with
      | .program .noImage => 1
      | _ => 0, w.rest)

end KernelTrg.Kbuild
