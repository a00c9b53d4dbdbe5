import KernelTrg.Books.Searches
import KernelTrg.Books.Retiring
import KernelTrg.Books.Progress

/-!
# How long a call takes

A search never has more of the list before it than when it began: books are added at
the front, which it has left behind, and a replacement stands where the old object
stood. So whatever the others do, a call takes at most two steps for each object ever
allocated and eleven more, and a run with finitely many calls ends.
-/

namespace KernelTrg.Books

open LinkRing Runs

variable {cfg : Config} {s₀ s s' t : Sys} {a : Action} {as : List Action} {xs xs' : List Addr}
  {ut ut' : Addr → Option Nat} {c k n : Nat} {f f' g : Frame} {alloc : Bool} {b : Addr}
  {p : Ptr Addr}

/-! ## The steps a call has before it -/

def Pc.rest : Pc → Nat
  | .test _ => 10
  | .alloc _ => 9
  | .copy .. => 8
  | .lock .. => 7
  | .replace .. | .del _ => 6
  | .unlock _ => 5
  | .leave _ | .init _ => 4
  | .reclaim _ | .addLock _ => 3
  | .sync .. | .addLink _ | .found _ | .print _ => 2
  | .free _ | .exit | .late _ | .addUnlock => 1
  | _ => 0

/-- With links `L` and `brk` objects allocated, the call has `k` steps before it, at most. -/
def Pc.Left (L : Links Addr) (brk : Nat) : Pc → Nat → Prop
  | .start, k => k = 2 * brk + 11
  | .first, k => k = 2 * brk + 10
  | .walk p, k => ∃ n, Span L p n ∧ k = 2 * n + 9
  | .next b, k => ∃ n, Span L (.node b) n ∧ k = 2 * n + 8
  | pc, k => k = pc.rest

theorem Sys.hit_left (op : Op) (b : Addr) (L : Links Addr) (brk : Nat) :
    ∃ k ≤ 10, (Sys.hit op b).Left L brk k := by
  cases op with
  | updateBook => exact ⟨10, by omega, rfl⟩
  | deleteBook => exact ⟨6, by omega, rfl⟩
  | isBorrowedBook | printBook => exact ⟨2, by omega, rfl⟩
  | addBook => exact ⟨0, by omega, rfl⟩

theorem Core.length_le (h : Core s xs ut) : xs.length ≤ s.mem.brk := by
  have hsub : xs ⊆ List.range s.mem.brk := fun b hb => List.mem_range.mpr (h.linked b hb).1
  simpa using (h.ring.nodup.subperm hsub).length_le

theorem Local.left (hl : Local s f f') (hcore : Core s xs ut)
    (h : f.pc.Left s.mem.links s.mem.brk k) :
    ∃ k', f'.pc.Left s.mem.links s.mem.brk k' ∧ k' + 1 ≤ k := by
  cases hl with
  | first hpc =>
      rw [hpc] at h
      cases h
      have hring : IsRing s.mem.links ([] ++ xs) := hcore.ring
      have hspan : Span s.mem.links (s.mem.links.next .head) xs.length := by
        rw [hcore.ring.next_head]
        exact hring.span_front
      have hlen := hcore.length_le
      exact ⟨_, ⟨xs.length, hspan, rfl⟩, by omega⟩
  | hit b hpc hid =>
      rw [hpc] at h
      obtain ⟨n, hspan, rfl⟩ := h
      obtain ⟨m, rfl, -⟩ := hspan.next
      obtain ⟨k, hk, hleft⟩ := Sys.hit_left f.op b s.mem.links s.mem.brk
      exact ⟨k, hleft, by omega⟩
  | miss b hpc hid =>
      rw [hpc] at h
      obtain ⟨n, hspan, rfl⟩ := h
      exact ⟨_, ⟨n, hspan, rfl⟩, by omega⟩
  | next b hpc =>
      rw [hpc] at h
      obtain ⟨n, hspan, rfl⟩ := h
      obtain ⟨m, rfl, hrest⟩ := hspan.next
      exact ⟨_, ⟨m, hrest, rfl⟩, by omega⟩
  | finish hpc =>
      rw [hpc] at h
      obtain ⟨n, hspan, rfl⟩ := h
      exact ⟨1, rfl, by omega⟩
  | wild p hpc hp =>
      rw [hpc] at h
      obtain ⟨n, hspan, rfl⟩ := h
      exact ⟨0, rfl, by omega⟩
  | enter hpc =>
      rw [hpc] at h
      cases h
      exact ⟨_, rfl, by omega⟩
  | noMemory hpc | refuse b u id async hpc | accept b u id async hpc | giveUp b hpc | leave b hpc
  | sync b hpc | grace b n hpc | found b hpc | late b hpc | print b hpc | exit hpc =>
      rw [hpc] at h
      cases h
      exact ⟨_, rfl, by simp [Pc.rest]⟩

/-- The call has one step less before it; an allocation may give a later search two more. -/
theorem Trans.left (ht : Trans cfg s c f alloc t) (hcore : Core s xs ut)
    (hf : s.frames[c]? = some f) (hf' : t.frames[c]? = some f')
    (h : f.pc.Left s.mem.links s.mem.brk k) :
    ∃ k', f'.pc.Left t.mem.links t.mem.brk k' ∧ k' + 1 ≤ k := by
  cases ht with
  | quiet f' hl ha =>
      rw [eq_of_getElem?_set hf hf']
      exact hl.left hcore h
  | acquire pc hfree hpc =>
      rw [eq_of_getElem?_set hf hf']
      rcases hpc with ⟨hpc, -, rfl⟩ | ⟨b, newB, hpc, rfl⟩ | ⟨b, hpc, rfl⟩ <;> rw [hpc] at h <;>
        cases h
      · exact ⟨_, rfl, by simp [Sys.goto]⟩
      · exact ⟨_, rfl, by simp [Pc.rest]⟩
      · exact ⟨_, rfl, by simp [Pc.rest]⟩
  | release pc hpc =>
      rw [eq_of_getElem?_set hf hf']
      rcases hpc with ⟨b, hpc, rfl⟩ | ⟨hpc, rfl⟩ | ⟨hpc, -, rfl⟩ <;> rw [hpc] at h <;> cases h
      · cases f.op.deletes with
        | true => exact ⟨3, rfl, by simp [Pc.rest]⟩
        | false => exact ⟨4, rfl, by simp [Pc.rest]⟩
      · exact ⟨0, rfl, by simp [Pc.rest]⟩
      · exact ⟨0, rfl, by simp [Pc.rest]⟩
  | alloc pc ha hpc =>
      rw [eq_of_getElem?_set hf hf']
      rcases hpc with ⟨id, name, author, -, hpc, rfl⟩ | ⟨b, hpc, rfl⟩ <;> rw [hpc] at h <;> cases h
      · exact ⟨4, rfl, by omega⟩
      · exact ⟨8, rfl, by simp [Pc.rest]⟩
  | copy b newB u id async hpc | init b v hpc | replaceFault b newB hpc
  | replace b newB u id async hpc | delFault b hpc | del b hpc | add b hpc | callRcu b hpc
  | free b hpc =>
      rw [eq_of_getElem?_set hf hf']
      rw [hpc] at h
      cases h
      exact ⟨_, rfl, by simp [Pc.rest]⟩

/-! ## Steps of others -/

theorem Relists.span (hr : Relists s a s' xs ut xs' ut') (hcore : Core s xs ut)
    (hp : ∀ b, p = .node b → Published xs ut b) (h : Span s.mem.links p n) :
    ∃ m ≤ n, Span s'.mem.links p m := by
  have hnext : ∀ x b, Published xs ut x → s.mem.links.next (.node x) = .node b →
      Published xs ut b := fun x b hx hb => hcore.published_next hx hb
  cases hr with
  | same hsame hentry hhist => exact h.mono _ hp hnext fun x hx => .inl (hsame x hx)
  | added k al f b ha hf hpc hframes hlinks =>
      rw [hlinks]
      exact h.insert hp hnext (hcore.fresh_unpublished hf (by simp [hpc, Pc.fresh]))
  | replaced k al f b newB u id async ha hf hpc hop hb hframes hlinks =>
      have hfresh := hcore.fresh_unpublished hf (n := newB) (by simp [hpc, Pc.fresh])
      rw [hlinks]
      exact h.replace hcore.ring hb (fun hm => hfresh (.inl hm)) hp hnext hfresh
  | deleted k al f b ha hf hpc hb hframes hlinks =>
      rw [hlinks]
      exact h.unlink hcore.ring hb hp hnext

theorem brk_step (hs : s.step cfg a = some s') : s.mem.brk ≤ s'.mem.brk := by
  rcases step_cases hs with ⟨op, -, rfl⟩ | ⟨c, al, f, t, -, hf, ht, rfl⟩ | ⟨i, b, r, -, -, -, rfl⟩
  · exact Nat.le_refl _
  · cases ht with
    | alloc => exact Nat.le_succ _
    | _ => exact Nat.le_refl _
  · exact Nat.le_refl _

/-- Others give a call at most two more steps for each object they allocate. -/
theorem Relists.left (hr : Relists s a s' xs ut xs' ut') (hcore : Core s xs ut)
    (hs : s.step cfg a = some s') (hf : s.frames[c]? = some f)
    (h : f.pc.Left s.mem.links s.mem.brk k) :
    ∃ k', f.pc.Left s'.mem.links s'.mem.brk k' ∧ k' + 2 * s.mem.brk ≤ k + 2 * s'.mem.brk := by
  have hbrk := brk_step hs
  have hreads := (hcore.frame c f hf).reads
  have hspan : ∀ p n, f.pc.cursor = some p → Span s.mem.links p n →
      ∃ m ≤ n, Span s'.mem.links p m := by
    intro p n hp hspan
    refine hr.span hcore ?_ hspan
    intro b hb
    subst hb
    exact (hreads b (Pc.reads_of_cursor hp)).published
  cases hpc : f.pc with
  | walk p =>
      rw [hpc] at h
      obtain ⟨n, hn, rfl⟩ := h
      obtain ⟨m, hm, hspan'⟩ := hspan p n (by simp [hpc, Pc.cursor]) hn
      exact ⟨_, ⟨m, hspan', rfl⟩, by omega⟩
  | next b =>
      rw [hpc] at h
      obtain ⟨n, hn, rfl⟩ := h
      obtain ⟨m, hm, hspan'⟩ := hspan (.node b) n (by simp [hpc, Pc.cursor]) hn
      exact ⟨_, ⟨m, hspan', rfl⟩, by omega⟩
  | start | first =>
      rw [hpc] at h
      cases h
      exact ⟨_, rfl, by omega⟩
  | _ =>
      rw [hpc] at h
      cases h
      exact ⟨_, rfl, by omega⟩

/-! ## Every run -/

def Action.steps (c : Nat) : Action → Bool
  | .run c' _ => c' == c
  | _ => false

/-- The steps a call has taken and those before it are at most two for each object and eleven. -/
structure Paced (as : List Action) (s : Sys) : Prop where
  calls : ∀ (c : Nat) (f : Frame), s.frames[c]? = some f →
    ∃ k, f.pc.Left s.mem.links s.mem.brk k ∧ as.countP (Action.steps c) + k ≤ 2 * s.mem.brk + 11
  future : ∀ c, s.frames[c]? = none → as.countP (Action.steps c) = 0

theorem Paced.boot (m : Mem) (ops : List Op) : Paced [] (Sys.boot m ops) where
  calls := by
    intro c f hf
    obtain ⟨op, -, rfl⟩ := List.mem_map.mp (List.mem_of_getElem? hf)
    exact ⟨_, rfl, by simp⟩
  future := fun _ _ => rfl

theorem countP_steps_snoc (as : List Action) (a : Action) (c : Nat) :
    (as ++ [a]).countP (Action.steps c) =
      as.countP (Action.steps c) + if a.steps c then 1 else 0 := by
  simp [List.countP_append, List.countP_cons]

theorem frames_length_step (htyped : Typed s) (hs : s.step cfg a = some s') :
    s.frames.length ≤ s'.frames.length := by
  rcases step_cases hs with ⟨op, -, rfl⟩ | ⟨c, al, f, t, -, hf, ht, rfl⟩ | ⟨i, b, r, -, -, -, rfl⟩
  · simp [Sys.tick]
  · obtain ⟨f', hframes, -⟩ := ht.fits (htyped f (List.mem_of_getElem? hf))
    simp [Sys.tick, hframes]
  · exact Nat.le_refl _

theorem Paced.step (h : Paced as s) (hcore : Core s xs ut) (htyped : Typed s)
    (hs : s.step cfg a = some s') (hr : Relists s a s' xs ut xs' ut') :
    Paced (as ++ [a]) s' := by
  have hbrk := brk_step hs
  have hlen := frames_length_step htyped hs
  constructor
  case calls =>
    intro c g hg
    rw [countP_steps_snoc]
    rcases step_frame htyped hs hg with
      ⟨op, rfl, rfl, rfl⟩ | ⟨al, f, t, rfl, hf, ht, rfl⟩ | ⟨hf, hne⟩
    · rw [h.future s.frames.length (by simp)]
      exact ⟨_, rfl, by simp [Action.steps]⟩
    · obtain ⟨k, hleft, hcount⟩ := h.calls c f hf
      obtain ⟨k', hleft', hk⟩ := (frameStep_trans ht).left hcore hf hg hleft
      refine ⟨k', hleft', ?_⟩
      simp only [Action.steps, beq_self_eq_true, if_true]
      omega
    · obtain ⟨k, hleft, hcount⟩ := h.calls c g hf
      obtain ⟨k', hleft', hk⟩ := hr.left hcore hs hf hleft
      refine ⟨k', hleft', ?_⟩
      have hother : a.steps c = false := by
        cases a with
        | run c' al =>
            have hc : c' ≠ c := fun e => hne al (by rw [e])
            simpa [Action.steps] using hc
        | _ => rfl
      rw [hother]
      simp only [Bool.false_eq_true, if_false]
      omega
  case future =>
    intro c hc
    rw [List.getElem?_eq_none_iff] at hc
    have hold := h.future c (List.getElem?_eq_none_iff.mpr (Nat.le_trans hlen hc))
    rw [countP_steps_snoc, hold]
    have hother : a.steps c = false := by
      cases a with
      | run c' al =>
          simp only [Action.steps, beq_eq_false_iff_ne]
          intro hcc
          subst hcc
          have hnone : s.frames[c']? = none := List.getElem?_eq_none_iff.mpr (Nat.le_trans hlen hc)
          simp [Sys.step, Sys.act, hnone] at hs
      | _ => rfl
    rw [hother]
    rfl

/-- However the calls of a run interleave, each takes at most two steps for every object allocated
in the run and eleven more. -/
theorem call_steps_le {m : Mem} (hm : Booted m xs) (ops : List Op)
    (hg : Along (Sys.step cfg) (ReplacesLinked cfg) (Sys.boot m ops) as)
    (hrun : exec (Sys.step cfg) (Sys.boot m ops) as = some s) (c : Nat) :
    as.countP (Action.steps c) ≤ 2 * s.mem.brk + 11 := by
  have hinv : ∃ xs ut, Sound s xs ut ∧ Paced as s := by
    refine exec_history (I := fun as s => ∃ xs ut, Sound s xs ut ∧ Paced as s) ?_
      ⟨xs, _, hm.sound ops, .boot m ops⟩ hg hrun
    intro as s a s' _ hI ha hs
    obtain ⟨xs, ut, h, hp⟩ := hI
    obtain ⟨xs', ut', h', hr⟩ := h.step ha hs
    exact ⟨xs', ut', h', hp.step h.core h.typed hs hr⟩
  obtain ⟨xs, ut, -, hp⟩ := hinv
  cases hf : s.frames[c]? with
  | some f =>
      obtain ⟨k, -, hk⟩ := hp.calls c f hf
      omega
  | none =>
      rw [hp.future c hf]
      omega

/-- A reader that starts before two books are added and finishes after. -/
theorem reader_steps_le : ∃ as s,
    exec (Sys.step ⟨false⟩) (Sys.boot oneBook [.printBook 7, .addBook 1 [] [], .addBook 2 [] []]) as =
      some s ∧
    s.mem.onList = [2, 1, 0] ∧ s.frames.map Frame.pc = [.done none, .done none, .done none] ∧
    ∀ c, as.countP (Action.steps c) ≤ 2 * s.mem.brk + 11 := by
  obtain ⟨s, hs, hend⟩ := Option.map_eq_some_iff.mp (show (exec (Sys.step ⟨false⟩)
      (Sys.boot oneBook [.printBook 7, .addBook 1 [] [], .addBook 2 [] []])
      (List.replicate 2 (.run 0 true) ++ List.replicate 5 (.run 1 true) ++
        List.replicate 5 (.run 2 true) ++ List.replicate 4 (.run 0 true))).map
      (fun s => (s.mem.onList, s.frames.map Frame.pc)) =
      some ([2, 1, 0], [.done none, .done none, .done none]) by decide)
  obtain ⟨hlist, hpc⟩ := Prod.mk.inj hend
  exact ⟨_, s, hs, hlist, hpc, call_steps_le oneBook_booted _ (by decide) hs⟩

/-! ## The end of a run -/

def Pc.allocates : Pc → Bool
  | .start | .first | .walk _ | .next _ | .test _ | .alloc _ => true
  | _ => false

def Action.calls : Action → Bool
  | .call _ => true
  | _ => false

def Action.reclaims : Action → Bool
  | .callback _ => true
  | _ => false

def Action.stepsBelow (n : Nat) : Action → Bool
  | .run c _ => c < n
  | _ => false

theorem countP_stepsBelow_succ (as : List Action) (n : Nat) :
    as.countP (Action.stepsBelow (n + 1)) =
      as.countP (Action.stepsBelow n) + as.countP (Action.steps n) := by
  induction as with
  | nil => rfl
  | cons a as ih =>
      simp only [List.countP_cons, ih]
      cases a with
      | run c al =>
          simp only [Action.stepsBelow, Action.steps, decide_eq_true_eq, beq_iff_eq]
          split_ifs <;> omega
      | _ => simp [Action.stepsBelow, Action.steps]

theorem countP_stepsBelow_le {B : Nat} (h : ∀ c, as.countP (Action.steps c) ≤ B) (n : Nat) :
    as.countP (Action.stepsBelow n) ≤ n * B := by
  induction n with
  | zero =>
      have hnone : as.countP (Action.stepsBelow 0) = 0 := by
        rw [List.countP_eq_zero]
        intro a _
        cases a <;> simp [Action.stepsBelow]
      omega
  | succ n ih =>
      have hn := h n
      rw [countP_stepsBelow_succ, Nat.succ_mul]
      omega

/-- Every action is a call, a callback or a step of one of the calls. -/
theorem length_eq_countP (h : ∀ c, n ≤ c → as.countP (Action.steps c) = 0) :
    as.length = as.countP Action.calls + as.countP Action.reclaims +
      as.countP (Action.stepsBelow n) := by
  have hbelow : ∀ a ∈ as, (a.calls || a.reclaims || a.stepsBelow n) = true := by
    intro a ha
    cases a with
    | run c al =>
        by_contra hno
        have hc : n ≤ c := by simpa [Action.calls, Action.reclaims, Action.stepsBelow] using hno
        have hzero := List.countP_eq_zero.mp (h c hc) _ ha
        simp [Action.steps] at hzero
    | _ => rfl
  clear h
  induction as with
  | nil => rfl
  | cons a as ih =>
      have hrest := ih fun x hx => hbelow x (List.mem_cons_of_mem _ hx)
      have ha := hbelow a (List.mem_cons_self ..)
      simp only [List.length_cons, List.countP_cons, hrest]
      cases a <;> simp_all [Action.calls, Action.reclaims, Action.stepsBelow] <;> omega

/-- What a run has done by way of calls, allocations and callbacks; `brk₀` objects and `n` calls
were there at the beginning. -/
structure Tallied (brk₀ n : Nat) (as : List Action) (s : Sys) : Prop where
  calls : as.countP Action.calls + n = s.frames.length
  allocs : s.mem.brk + s.frames.countP (fun f => f.pc.allocates) ≤ brk₀ + s.frames.length
  reclaims : as.countP Action.reclaims ≤ s.mem.freed.length

theorem Local.allocates (hl : Local s f f') (h : f'.pc.allocates = true) :
    f.pc.allocates = true := by
  cases hl with
  | enter hpc | first hpc | miss b hpc | next b hpc | accept b u id async hpc | hit b hpc =>
      simp [hpc, Pc.allocates]
  | _ => cases h

theorem Trans.tallies (ht : Trans cfg s c f alloc t) (hf : s.frames[c]? = some f) :
    t.mem.brk + t.frames.countP (fun f => f.pc.allocates) ≤
        s.mem.brk + s.frames.countP (fun f => f.pc.allocates) ∧
      s.mem.freed.length ≤ t.mem.freed.length ∧ t.frames.length = s.frames.length := by
  have move : ∀ f', t.frames = s.frames.set c f' → t.mem.brk + (if f'.pc.allocates then 1 else 0) ≤
      s.mem.brk + (if f.pc.allocates then 1 else 0) →
      t.mem.brk + t.frames.countP (fun f => f.pc.allocates) ≤
        s.mem.brk + s.frames.countP (fun f => f.pc.allocates) ∧
      t.frames.length = s.frames.length := by
    intro f' hframes hle
    obtain ⟨hlt, hat⟩ := List.getElem?_eq_some_iff.mp hf
    have hset := List.countP_set (p := fun f : Frame => f.pc.allocates) (a := f') hlt
    have hone := List.boole_getElem_le_countP (p := fun f : Frame => f.pc.allocates) hlt
    rw [hat] at hset hone
    rw [hframes]
    refine ⟨?_, List.length_set⟩
    omega
  cases ht with
  | quiet f' hl ha =>
      obtain ⟨hle, hlen⟩ := move f' rfl (by
        have := hl.allocates
        cases hb : f'.pc.allocates <;> simp_all)
      exact ⟨hle, Nat.le_refl _, hlen⟩
  | acquire pc hfree hpc =>
      obtain ⟨hle, hlen⟩ := move { f with pc := pc } rfl (by
        rcases hpc with ⟨hpc, -, rfl⟩ | ⟨b, newB, hpc, rfl⟩ | ⟨b, hpc, rfl⟩ <;>
          simp [hpc, Pc.allocates, Sys.goto])
      exact ⟨hle, Nat.le_refl _, hlen⟩
  | release pc hpc =>
      obtain ⟨hle, hlen⟩ := move { f with pc := pc } rfl (by
        rcases hpc with ⟨b, hpc, rfl⟩ | ⟨hpc, rfl⟩ | ⟨hpc, -, rfl⟩
        · cases f.op.deletes <;> simp [hpc, Pc.allocates, Sys.goto]
        · simp [hpc, Pc.allocates, Sys.goto]
        · simp [hpc, Pc.allocates, Sys.goto])
      exact ⟨hle, Nat.le_refl _, hlen⟩
  | alloc pc ha hpc =>
      obtain ⟨hle, hlen⟩ := move { f with pc := pc } rfl (by
        rcases hpc with ⟨id, name, author, -, hpc, rfl⟩ | ⟨b, hpc, rfl⟩ <;>
          simp [hpc, Pc.allocates, Sys.goto, Mem.kzalloc])
      exact ⟨hle, Nat.le_refl _, hlen⟩
  | free b hpc =>
      obtain ⟨hle, hlen⟩ := move { f with pc := .done f.op.success } rfl (by
        simp [hpc, Pc.allocates, Sys.goto, Mem.kfree])
      exact ⟨hle, Nat.le_succ _, hlen⟩
  | copy b newB u id async hpc | init b v hpc | replaceFault b newB hpc
  | replace b newB u id async hpc | delFault b hpc | del b hpc | add b hpc | callRcu b hpc =>
      obtain ⟨hle, hlen⟩ := move _ rfl (by
        simp [hpc, Pc.allocates, Sys.goto, Mem.memcpy, Mem.setBorrow, Mem.setBook,
          Sys.replaceFault, Mem.listReplaceRcu, Sys.delFault, Mem.listDelRcu, Mem.listAddRcu])
      exact ⟨hle, Nat.le_refl _, hlen⟩

theorem Tallied.step {brk₀ n : Nat} (h : Tallied brk₀ n as s) (hs : s.step cfg a = some s') :
    Tallied brk₀ n (as ++ [a]) s' := by
  have hcalls := h.calls
  have hallocs := h.allocs
  have hreclaims := h.reclaims
  rcases step_cases hs with
    ⟨op, rfl, rfl⟩ | ⟨c, al, f, t, rfl, hf, ht, rfl⟩ | ⟨i, b, r, rfl, -, -, rfl⟩
  · constructor
    · simp only [List.countP_append, Sys.tick, List.length_append]
      simp [Action.calls]
      omega
    · have hnew : [Frame.new op].countP (fun f => f.pc.allocates) = 1 := rfl
      simp only [Sys.tick, List.countP_append, List.length_append, hnew, List.length_singleton]
      omega
    · simpa [List.countP_append, Sys.tick, Action.reclaims] using hreclaims
  · obtain ⟨hbrk, hfreed, hlen⟩ := ht.tallies hf
    constructor
    · simp only [List.countP_append, Sys.tick]
      simp [Action.calls]
      omega
    · simp only [Sys.tick]
      omega
    · simp only [List.countP_append, Sys.tick]
      simp [Action.reclaims]
      omega
  · constructor
    · simpa [List.countP_append, Sys.tick, Action.calls] using hcalls
    · simpa [Sys.tick, Mem.kfree] using hallocs
    · simp only [List.countP_append, Sys.tick, Mem.kfree, List.length_cons]
      simp [Action.reclaims]
      omega

/-- A call is stopped on a wild pointer in one of three ways. -/
theorem Trans.stopped (ht : Trans cfg s c f alloc t) (hf : s.frames[c]? = some f) (hfits : f.Fits)
    (hf' : t.frames[c]? = some f') (hpc : f'.pc = .oops) :
    (∃ p, f.pc = .walk p ∧ (p = .null ∨ p = .poison)) ∨
      ∃ b, f.pc.unlinking = some b ∧ s.mem.links.prev (.node b) = .poison := by
  cases ht with
  | quiet f' hl ha =>
      rw [eq_of_getElem?_set hf hf'] at hpc
      cases hl with
      | wild p hp hwild => exact .inl ⟨p, hp, hwild⟩
      | hit b hp hid =>
          have hadds : f.op.adds = false := by simpa [hp, Pc.suits] using hfits.suits
          cases hop : f.op <;> simp [Sys.hit, hop, Op.adds] at hpc hadds
      | _ => cases hpc
  | replaceFault b newB hp hcfg hprev => exact .inr ⟨b, by simp [hp, Pc.unlinking], hprev⟩
  | delFault b hp hcfg hprev => exact .inr ⟨b, by simp [hp, Pc.unlinking], hprev⟩
  | acquire pc hfree hp =>
      rw [eq_of_getElem?_set hf hf'] at hpc
      rcases hp with ⟨-, -, rfl⟩ | ⟨b, newB, -, rfl⟩ | ⟨b, -, rfl⟩ <;> cases hpc
  | release pc hp =>
      rw [eq_of_getElem?_set hf hf'] at hpc
      rcases hp with ⟨b, -, rfl⟩ | ⟨-, rfl⟩ | ⟨-, -, rfl⟩
      · cases hdel : f.op.deletes <;> simp [hdel] at hpc
      · cases hpc
      · cases hpc
  | alloc pc ha hp =>
      rw [eq_of_getElem?_set hf hf'] at hpc
      rcases hp with ⟨id, name, author, -, -, rfl⟩ | ⟨b, -, rfl⟩ <;> cases hpc
  | _ =>
      rw [eq_of_getElem?_set hf hf'] at hpc
      cases hpc

/-- No call has been stopped on a wild pointer; while one is unfinished some call can go on, and
afterwards every waiting callback can run. -/
structure Advances (cfg : Config) (s : Sys) : Prop where
  unharmed : ∀ f ∈ s.frames, f.pc ≠ .oops
  goes : ∀ f ∈ s.frames, (∀ r, f.pc ≠ .done r) → ∃ c s', s.step cfg (.run c true) = some s'
  reclaims : (∀ f ∈ s.frames, ∃ r, f.pc = .done r) →
    ∀ i < s.callbacks.length, ∃ s', s.step cfg (.callback i) = some s'

/-- The invariant of an undisturbed run, for what it has done and whether it goes on. -/
structure Running (brk₀ n : Nat) (as : List Action) (s : Sys) (xs : List Addr)
    (ut : Addr → Option Nat) : Prop where
  orderly : Orderly s xs ut
  paced : Paced as s
  tallied : Tallied brk₀ n as s
  holder : Holder s
  unharmed : ∀ f ∈ s.frames, f.pc ≠ .oops

namespace Running

variable {brk₀ : Nat}

theorem unlinking_linked (h : Running brk₀ n as s xs ut) (hf : s.frames[c]? = some f)
    (hb : f.pc.unlinking = some b) : s.mem.links.prev (.node b) ≠ .poison :=
  h.orderly.retiredOnce.linked f (List.mem_of_getElem? hf) b hb

theorem step (h : Running brk₀ n as s xs ut) (hg : Undisturbed s a)
    (hs : s.step cfg a = some s') : ∃ xs' ut', Running brk₀ n (as ++ [a]) s' xs' ut' := by
  have ho := h.orderly
  obtain ⟨xs', ut', hsound, hr⟩ := ho.toSound.step (ho.held.replacesLinked ho.core) hs
  have horderly : Orderly s' xs' ut' := ⟨hsound, ho.ledger.step hs,
    ho.unlinkedOnce.step ho.core hr, ho.held.step ho.core ho.typed hg hs hr⟩
  refine ⟨xs', ut', horderly, h.paced.step ho.core ho.typed hs hr, h.tallied.step hs,
    h.holder.step ho.typed hs, ?_⟩
  intro g hg' hpc
  obtain ⟨c, hc⟩ := List.getElem?_of_mem hg'
  rcases step_frame ho.typed hs hc with ⟨op, -, -, rfl⟩ | ⟨al, f, t, -, hf, ht, rfl⟩ | ⟨hf, -⟩
  · cases hpc
  · have hfits := ho.typed f (List.mem_of_getElem? hf)
    rcases Trans.stopped (t := t) (frameStep_trans ht) hf hfits hc hpc with
      ⟨p, hwalk, hwild⟩ | ⟨b, hb, hprev⟩
    · -- the way from the cursor leads to the sentinel
      obtain ⟨k, hleft, -⟩ := h.paced.calls c f hf
      rw [hwalk] at hleft
      obtain ⟨m, hspan, -⟩ := hleft
      rcases hwild with rfl | rfl <;> cases hspan
    · exact h.unlinking_linked hf hb hprev
  · exact h.unharmed g (List.mem_of_getElem? hf) hpc

theorem advances (h : Running brk₀ n as s xs ut) : Advances cfg s where
  unharmed := h.unharmed
  goes := fun _ hf hdone =>
    some_call_steps h.orderly.typed h.holder h.unharmed hf hdone
  reclaims := by
    intro hdone i hi
    have hgrace : ∀ n, s.graceOver n = true := by
      intro n
      rw [Sys.graceOver, List.all_eq_true]
      intro f hf
      obtain ⟨r, hpc⟩ := hdone f hf
      have hnone := (h.orderly.typed f hf).outside (by simp [hpc, Pc.inside])
      rw [hnone]
    cases hget : s.callbacks[i]? with
    | none => exact absurd hi (Nat.not_lt.mpr (List.getElem?_eq_none_iff.mp hget))
    | some p =>
        refine ⟨{ s with mem := s.mem.kfree p.1, callbacks := s.callbacks.eraseIdx i }.tick, ?_⟩
        simp [Sys.step, Sys.act, Sys.bookReclaimCallback, hget, hgrace p.2]

theorem freed_le (h : Running brk₀ n as s xs ut) : s.mem.freed.length ≤ s.mem.brk := by
  have hnodup := (List.nodup_append.mp h.orderly.retiredOnce.freedOnce).2.1
  have hsub : s.mem.freed ⊆ List.range s.mem.brk := by
    intro b hb
    obtain ⟨t, ht, -⟩ := h.orderly.core.freed b hb
    exact List.mem_range.mpr (h.orderly.core.gone b t ht).1
  simpa using (hnodup.subperm hsub).length_le

theorem length_le (h : Running brk₀ n as s xs ut) :
    as.length ≤ s.frames.length * (2 * (brk₀ + s.frames.length) + 13) + brk₀ := by
  have hbrk : s.mem.brk ≤ brk₀ + s.frames.length := by
    have := h.tallied.allocs
    omega
  have hsteps : ∀ c, as.countP (Action.steps c) ≤ 2 * (brk₀ + s.frames.length) + 11 := by
    intro c
    cases hf : s.frames[c]? with
    | some f =>
        obtain ⟨k, -, hk⟩ := h.paced.calls c f hf
        omega
    | none =>
        rw [h.paced.future c hf]
        omega
  have hruns := countP_stepsBelow_le hsteps s.frames.length
  have hall : as.length = as.countP Action.calls + as.countP Action.reclaims +
      as.countP (Action.stepsBelow s.frames.length) := length_eq_countP fun c hc =>
    h.paced.future c (List.getElem?_eq_none_iff.mpr hc)
  have hcalls := h.tallied.calls
  have hreclaims := h.tallied.reclaims
  have hfreed := h.freed_le
  have hsplit : s.frames.length * (2 * (brk₀ + s.frames.length) + 13) =
      s.frames.length * (2 * (brk₀ + s.frames.length) + 11) + 2 * s.frames.length := by
    rw [← Nat.mul_comm s.frames.length 2, ← Nat.mul_add]
  omega

end Running

/-- An undisturbed run is no longer than the number of its calls allows, so every schedule of
finitely many calls ends; and as long as a call is unfinished the run can go on. -/
theorem undisturbed_runs_end {m : Mem} (hm : Booted m xs) (ops : List Op)
    (hg : Along (Sys.step cfg) Undisturbed (Sys.boot m ops) as)
    (hrun : exec (Sys.step cfg) (Sys.boot m ops) as = some s) :
    as.length ≤ s.frames.length * (2 * (m.brk + s.frames.length) + 13) + m.brk ∧
      Advances cfg s := by
  have hboot : Running m.brk ops.length [] (Sys.boot m ops) xs (fun _ => none) := by
    refine ⟨hm.orderly ops, .boot m ops, ⟨by simp [Sys.boot], ?_, Nat.zero_le _⟩, .boot m ops, ?_⟩
    · exact Nat.add_le_add_left List.countP_le_length _
    · intro f hf hpc
      obtain ⟨op, -, rfl⟩ := List.mem_map.mp hf
      cases hpc
  have hinv : ∃ xs ut, Running m.brk ops.length as s xs ut := by
    refine exec_history (I := fun as s => ∃ xs ut, Running m.brk ops.length as s xs ut) ?_
      ⟨xs, _, hboot⟩ hg hrun
    intro as s a s' _ hI ha hs
    obtain ⟨xs, ut, h⟩ := hI
    exact h.step ha hs
  obtain ⟨xs, ut, h⟩ := hinv
  exact ⟨h.length_le, h.advances⟩

/-- A borrower and a deleter one after the other. -/
theorem borrow_then_delete_end : ∃ as s,
    exec (Sys.step ⟨true⟩) (Sys.boot oneBook [.borrowBook 0 true, .deleteBook 0 false]) as = some s ∧
    as.length = 20 ∧ as.length ≤ 2 * (2 * (1 + 2) + 13) + 1 ∧ Advances ⟨true⟩ s := by
  obtain ⟨s, hs, hlen⟩ := Option.map_eq_some_iff.mp (show (exec (Sys.step ⟨true⟩)
      (Sys.boot oneBook [.borrowBook 0 true, .deleteBook 0 false])
      (List.replicate 11 (.run 0 true) ++ List.replicate 8 (.run 1 true) ++ [.callback 0])).map
      (fun s => s.frames.length) = some 2 by decide)
  obtain ⟨hle, hadv⟩ := undisturbed_runs_end oneBook_booted _ (by decide) hs
  rw [hlen] at hle
  exact ⟨_, s, hs, by decide, hle, hadv⟩

end KernelTrg.Books
