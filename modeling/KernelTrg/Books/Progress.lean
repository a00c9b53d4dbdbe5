import KernelTrg.Books.Invariant

/-!
# Some call can always go on

A call waits for two things: the lock, whose holder never waits, and the end of
read-side critical sections, inside which a call waits for the lock at most. So as
long as no call has been stopped on a wild pointer there is no deadlock.
-/

namespace KernelTrg.Books

open LinkRing

variable {cfg : Config} {s s' t : Sys} {a : Action} {c : Nat} {f f' : Frame} {alloc : Bool}

/-! ## The lock has a holder -/

/-- The lock is held by a call at a step under the lock, or by one that was stopped there. -/
def Holder (s : Sys) : Prop := ∀ c, s.lock = some c →
  ∃ f, s.frames[c]? = some f ∧ (f.locked = true ∨ f.pc = .oops)

theorem Holder.boot (m : Mem) (ops : List Op) : Holder (Sys.boot m ops) :=
  fun _ h => by cases h

theorem Local.locked (hl : Local s f f') (h : f.locked = true) :
    f'.locked = true ∨ f'.pc = .oops := by
  cases hl with
  | hit b hpc hid =>
      have hdel : f.op.deletes = true := by simpa [Frame.locked, hpc] using h
      left
      cases hop : f.op <;> simp_all [Sys.hit, Frame.locked, Op.deletes]
  | exit hpc hdel => simp [Frame.locked, hpc, hdel] at h
  | wild p hpc hp => exact .inr rfl
  | first hpc | finish hpc | miss b hpc | next b hpc =>
      exact .inl (by simpa [Frame.locked, hpc] using h)
  | noMemory hpc | enter hpc | refuse b u id async hpc | accept b u id async hpc | giveUp b hpc
  | leave b hpc | sync b hpc | grace b t hpc | found b hpc | late b hpc | print b hpc =>
      simp [Frame.locked, hpc] at h

theorem Trans.locked (ht : Trans cfg s c f alloc t) (hf : s.frames[c]? = some f)
    (h : f.locked = true) :
    t.lock = none ∨ ∃ f', t.frames[c]? = some f' ∧ (f'.locked = true ∨ f'.pc = .oops) := by
  have hset : ∀ g, (s.frames.set c g)[c]? = some g := fun _ =>
    List.getElem?_set_self (List.getElem?_eq_some_iff.mp hf).1
  cases ht with
  | quiet f' hl ha => exact .inr ⟨f', hset _, hl.locked h⟩
  | acquire pc hfree hpc =>
      rcases hpc with ⟨hpc, -, -⟩ | ⟨b, newB, hpc, -⟩ | ⟨b, hpc, -⟩ <;> simp [Frame.locked, hpc] at h
  | release pc hpc => exact .inl rfl
  | alloc pc ha hpc =>
      rcases hpc with ⟨id, name, author, -, hpc, -⟩ | ⟨b, hpc, -⟩ <;> simp [Frame.locked, hpc] at h
  | copy b newB u id async hpc | init b v hpc | callRcu b hpc | free b hpc =>
      simp [Frame.locked, hpc] at h
  | replaceFault b newB hpc | delFault b hpc =>
      exact .inr ⟨_, hset _, .inr rfl⟩
  | replace b newB u id async hpc | del b hpc | add b hpc =>
      exact .inr ⟨_, hset _, .inl rfl⟩

theorem Trans.lock_cases (ht : Trans cfg s c f alloc t) (hf : s.frames[c]? = some f) :
    t.lock = s.lock ∨ t.lock = none ∨
      t.lock = some c ∧ ∃ f', t.frames[c]? = some f' ∧ f'.locked = true := by
  have hset : ∀ g, (s.frames.set c g)[c]? = some g := fun _ =>
    List.getElem?_set_self (List.getElem?_eq_some_iff.mp hf).1
  cases ht with
  | acquire pc hfree hpc =>
      refine .inr (.inr ⟨rfl, _, hset _, ?_⟩)
      rcases hpc with ⟨-, hdel, rfl⟩ | ⟨b, newB, -, rfl⟩ | ⟨b, -, rfl⟩
      · exact hdel
      · rfl
      · rfl
  | release pc hpc => exact .inr (.inl rfl)
  | _ => exact .inl rfl

theorem Holder.step (h : Holder s) (htyped : Typed s) (hs : s.step cfg a = some s') :
    Holder s' := by
  intro c' hlock
  rcases step_cases hs with ⟨op, -, rfl⟩ | ⟨c, al, f, t, -, hf, ht, rfl⟩ | ⟨i, b, r, -, -, -, rfl⟩
  · obtain ⟨g, hg, hk⟩ := h c' hlock
    refine ⟨g, ?_, hk⟩
    simp [Sys.tick, List.getElem?_append_left (List.getElem?_eq_some_iff.mp hg).1, hg]
  · change t.lock = some c' at hlock
    change ∃ g, t.frames[c']? = some g ∧ (g.locked = true ∨ g.pc = .oops)
    rcases ht.lock_cases hf with hsame | hnone | ⟨hown, f', hf', hk⟩
    · obtain ⟨g, hg, hk⟩ := h c' (hsame ▸ hlock)
      by_cases hc : c' = c
      · subst hc
        cases hf.symm.trans hg
        rcases hk with hk | hk
        · rcases ht.locked hf hk with hnone | hex
          · rw [hnone] at hlock
            cases hlock
          · exact hex
        · -- a stopped call does not step
          cases ht with
          | quiet f' hl ha => cases hl <;> simp_all
          | acquire pc hfree hpc => simp_all
          | release pc hpc => simp_all
          | alloc pc ha hpc => simp_all
          | _ => simp_all
      · obtain ⟨f', hframes, -⟩ := ht.fits (htyped f (List.mem_of_getElem? hf))
        exact ⟨g, by rw [hframes, List.getElem?_set_ne (Ne.symm hc), hg], hk⟩
    · rw [hnone] at hlock
      cases hlock
    · rw [hown] at hlock
      cases hlock
      exact ⟨f', hf', .inl hk⟩
  · exact h c' hlock

/-! ## Waiting -/

def Frame.Waits (s : Sys) (f : Frame) : Prop :=
  match f.pc with
  | .start => f.op.deletes = true ∧ s.lock ≠ none
  | .lock .. | .addLock _ => s.lock ≠ none
  | .sync _ t => s.graceOver t = false
  | _ => False

theorem frameStep_isSome (cfg : Config) (c : Nat) (hf : f.Fits) (hdone : ∀ r, f.pc ≠ .done r)
    (hoops : f.pc ≠ .oops) (hw : ¬ f.Waits s) :
    (s.frameStep cfg c f true).isSome = true := by
  obtain ⟨op, pc, since⟩ := f
  have hs := hf.suits
  clear hf
  cases pc with
  | start => cases op <;> simp_all [Frame.Waits, Sys.frameStep, Op.deletes]
  | walk p =>
      cases p with
      | node b =>
          simp only [Sys.frameStep]
          split <;> rfl
      | _ => rfl
  | lock b newB | addLock b => simp_all [Frame.Waits, Sys.frameStep]
  | sync b t => simp_all [Frame.Waits, Sys.frameStep]
  | test b | replace b newB =>
      cases op with
      | updateBook u id async =>
          simp only [Sys.frameStep]
          split <;> rfl
      | _ => simp [Pc.suits, Op.updates] at hs
  | copy b newB =>
      cases op with
      | updateBook u id async => rfl
      | _ => simp [Pc.suits, Op.updates] at hs
  | init b =>
      cases op with
      | addBook id name author => rfl
      | _ => simp [Pc.suits, Op.adds] at hs
  | del b | reclaim b | exit =>
      simp only [Sys.frameStep]
      split <;> rfl
  | done r => exact absurd rfl (hdone r)
  | oops => exact absurd rfl hoops
  | _ => rfl

theorem run_isSome (hf : s.frames[c]? = some f) (hfits : f.Fits) (hdone : ∀ r, f.pc ≠ .done r)
    (hoops : f.pc ≠ .oops) (hw : ¬ f.Waits s) : ∃ s', s.step cfg (.run c true) = some s' := by
  obtain ⟨t, ht⟩ := Option.isSome_iff_exists.mp
    (frameStep_isSome cfg c hfits hdone hoops hw)
  exact ⟨t.tick, by simp [Sys.step, Sys.act, hf, ht]⟩

/-- Under the lock and inside a critical section nothing is waited for but the lock. -/
theorem Frame.waits_lock (h : f.locked = true ∨ f.pc.inside = true) (hw : f.Waits s) :
    f.locked = false ∧ s.lock ≠ none := by
  obtain ⟨op, pc, since⟩ := f
  cases pc <;> simp_all [Frame.locked, Frame.Waits, Pc.inside]

/-- While a call is unfinished, and none was stopped on a wild pointer, some call can step. -/
theorem some_call_steps (htyped : Typed s) (hholder : Holder s)
    (hoops : ∀ f ∈ s.frames, f.pc ≠ .oops) (hf : f ∈ s.frames) (hdone : ∀ r, f.pc ≠ .done r) :
    ∃ c s', s.step cfg (.run c true) = some s' := by
  cases hlock : s.lock with
  | some c =>
      -- the holder goes on
      obtain ⟨g, hg, hk⟩ := hholder c hlock
      have hmem := List.mem_of_getElem? hg
      have hlocked : g.locked = true := hk.resolve_right (hoops g hmem)
      refine ⟨c, run_isSome hg (htyped g hmem) ?_ (hoops g hmem) ?_⟩
      · intro r hr
        simp [Frame.locked, hr] at hlocked
      · intro hw
        rw [(Frame.waits_lock (.inl hlocked) hw).1] at hlocked
        cases hlocked
  | none =>
      by_cases hw : f.Waits s
      · -- only a grace period can keep the call waiting, so some section is open
        have hgrace : ∃ b t, f.pc = .sync b t ∧ s.graceOver t = false := by
          obtain ⟨op, pc, since⟩ := f
          cases pc <;> simp_all [Frame.Waits]
        obtain ⟨b, t, -, hg⟩ := hgrace
        obtain ⟨g, hmem, hopen⟩ := List.all_eq_false.mp hg
        obtain ⟨c, hc⟩ := List.getElem?_of_mem hmem
        have hinside : g.pc.inside = true := by
          by_contra hout
          have hnone := (htyped g hmem).outside (by simpa using hout)
          simp [hnone] at hopen
        refine ⟨c, run_isSome hc (htyped g hmem) ?_ (hoops g hmem) ?_⟩
        · intro r hr
          simp [Pc.inside, hr] at hinside
        · exact fun hwg => (Frame.waits_lock (.inr hinside) hwg).2 hlock
      · obtain ⟨c, hc⟩ := List.getElem?_of_mem hf
        exact ⟨c, run_isSome hc (htyped f hf) hdone (hoops f hf) hw⟩

end KernelTrg.Books
