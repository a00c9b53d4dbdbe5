import KernelTrg.Books.History

/-!
# The pointer invariant

`Core` speaks of three kinds of objects: those on the list, those taken off it at a
known time, and the copies a call has not linked yet. The forward link of an
unlinked object leads to one that is linked or was unlinked no earlier, so whatever
a call reaches inside its read-side critical section was still linked when the
section began. It is kept by every step that does not update the links of an
unlinked object.
-/

namespace KernelTrg.Books

open LinkRing

/-! ## What a frame holds -/

/-- The published objects whose fields the call may still load in its search. -/
def Pc.reads : Pc → List Addr
  | .walk (.node b) | .next b | .test b | .alloc b | .copy b _ | .lock b _ | .replace b _
  | .del b | .found b | .print b => [b]
  | _ => []

/-- The object allocated by the call and not linked yet. -/
def Pc.fresh : Pc → Option Addr
  | .copy _ n | .lock _ n | .replace _ n | .init n | .addLock n | .addLink n => some n
  | _ => none

def Frame.locked (f : Frame) : Bool :=
  match f.pc with
  | .replace .. | .unlock _ | .addLink _ | .addUnlock => true
  | .first | .walk _ | .next _ | .del _ | .exit => f.op.deletes
  | _ => false

theorem Pc.inside_of_reads {pc : Pc} {b : Addr} (h : b ∈ pc.reads) : pc.inside = true := by
  cases pc <;> simp_all [Pc.reads, Pc.inside]

theorem Frame.Fits.locked {f : Frame} (h : f.Fits) (hin : f.pc.inside = true)
    (hdel : f.op.deletes = true) : f.locked = true := by
  obtain ⟨op, pc, since⟩ := f
  have hs := h.suits
  clear h
  cases op with
  | deleteBook id async =>
      cases pc <;> simp_all [Frame.locked, Pc.inside, Pc.suits, Op.updates, Op.deletes]
  | _ => cases hdel

/-- A search outside a critical section is that of `delete_book`, under the lock. -/
theorem Frame.Fits.covered {f : Frame} {b : Addr} (h : f.Fits) (hb : b ∈ f.pc.reads)
    (hsince : f.since = none) : f.locked = true :=
  have hin := Pc.inside_of_reads hb
  h.locked hin (h.entered hin hsince)

/-- No open read-side critical section began at or before `t`. -/
def Quiesced (s : Sys) (t : Nat) : Prop := ∀ f ∈ s.frames, ∀ r, f.since = some r → t < r

/-- `b` is linked, or was unlinked after the critical section that began at `since`. -/
def Safe (xs : List Addr) (ut : Addr → Option Nat) (since : Option Nat) (b : Addr) : Prop :=
  b ∈ xs ∨ ∃ r t, since = some r ∧ ut b = some t ∧ r < t

def Published (xs : List Addr) (ut : Addr → Option Nat) (x : Addr) : Prop :=
  x ∈ xs ∨ ∃ t, ut x = some t

theorem Safe.published {since : Option Nat} (h : Safe xs ut since b) : Published xs ut b := by
  rcases h with hb | ⟨r, t, -, ht, -⟩
  · exact .inl hb
  · exact .inr ⟨t, ht⟩

structure FrameOk (s : Sys) (xs : List Addr) (ut : Addr → Option Nat) (c : Nat) (f : Frame) :
    Prop where
  reads : ∀ b ∈ f.pc.reads, Safe xs ut f.since b
  fresh : ∀ n, f.pc.fresh = some n → n < s.mem.brk ∧ n ∉ xs ∧ ut n = none
  doomed : ∀ b, f.pc.doomed = some b → ∃ t, ut b = some t ∧
    (∀ r, f.pc = .sync b r → t < r) ∧ (f.pc = .free b → Quiesced s t)
  lock : f.locked = true → s.lock = some c
  since : ∀ r, f.since = some r → r < s.clock

/-- `xs` are the objects on the list, and `ut` the times at which others were unlinked. -/
structure Core (s : Sys) (xs : List Addr) (ut : Addr → Option Nat) : Prop where
  ring : IsRing s.mem.links xs
  linked : ∀ b ∈ xs, b < s.mem.brk ∧ ut b = none
  gone : ∀ b t, ut b = some t → b < s.mem.brk ∧ t < s.clock ∧
    s.mem.links.prev (.node b) = .poison ∧
    (s.mem.links.next (.node b) = .head ∨
      ∃ a, s.mem.links.next (.node b) = .node a ∧ (a ∈ xs ∨ ∃ t', ut a = some t' ∧ t ≤ t'))
  freed : ∀ b ∈ s.mem.freed, ∃ t, ut b = some t ∧ Quiesced s t
  pending : ∀ p ∈ s.callbacks, ∃ t, ut p.1 = some t ∧ t < p.2
  frame : ∀ c f, s.frames[c]? = some f → FrameOk s xs ut c f
  apart : ∀ (c c' : Nat) (f f' : Frame) (n : Addr), s.frames[c]? = some f → s.frames[c']? = some f' →
    f.pc.fresh = some n → f'.pc.fresh = some n → c = c'

/-! ## Consequences -/

namespace Core

variable {s : Sys} {xs : List Addr} {ut : Addr → Option Nat} {c : Nat} {f : Frame} {b n : Addr}

/-- A linked object is told from an unlinked one by its backward link. -/
theorem mem_of_prev (h : Core s xs ut) {since : Option Nat} (hs : Safe xs ut since b)
    (hp : s.mem.links.prev (.node b) ≠ .poison) : b ∈ xs := by
  rcases hs with hb | ⟨r, t, -, ht, -⟩
  · exact hb
  · exact absurd (h.gone b t ht).2.2.1 hp

theorem prev_of_mem (h : Core s xs ut) (hb : b ∈ xs) :
    s.mem.links.prev (.node b) ≠ .poison := by
  intro hp
  have hm := h.ring.prev_mem (mem_ring_node.mpr hb)
  rw [hp] at hm
  exact not_mem_ring_poison hm

theorem brk_fresh (h : Core s xs ut) : s.mem.brk ∉ xs ∧ ut s.mem.brk = none := by
  constructor
  · exact fun hm => Nat.lt_irrefl _ (h.linked _ hm).1
  · cases hu : ut s.mem.brk with
    | none => rfl
    | some t => exact absurd (h.gone _ t hu).1 (Nat.lt_irrefl _)

/-- What a call may load in its search has not been freed. -/
theorem not_freed (h : Core s xs ut) (hf : s.frames[c]? = some f) (hb : Safe xs ut f.since b) :
    b ∉ s.mem.freed := by
  intro hfreed
  obtain ⟨t, ht, hq⟩ := h.freed b hfreed
  rcases hb with hb | ⟨r, t', hr, ht', hlt⟩
  · rw [(h.linked b hb).2] at ht
    cases ht
  · have hle := hq f (List.mem_of_getElem? hf) r hr
    rw [ht] at ht'
    cases ht'
    omega

theorem safe_next (h : Core s xs ut) {since : Option Nat} (hb : Safe xs ut since b) :
    s.mem.links.next (.node b) = .head ∨
      ∃ a, s.mem.links.next (.node b) = .node a ∧ Safe xs ut since a := by
  rcases hb with hb | ⟨r, t, hr, ht, hlt⟩
  · rcases mem_ring_iff.mp (h.ring.next_mem (mem_ring_node.mpr hb)) with hh | ⟨a, ha, hn⟩
    · exact .inl hh
    · exact .inr ⟨a, hn, .inl ha⟩
  · rcases (h.gone b t ht).2.2.2 with hh | ⟨a, hn, ha | ⟨t', ht', hle⟩⟩
    · exact .inl hh
    · exact .inr ⟨a, hn, .inl ha⟩
    · exact .inr ⟨a, hn, .inr ⟨r, t', hr, ht', by omega⟩⟩

theorem safe_first (h : Core s xs ut) (since : Option Nat) :
    s.mem.links.next .head = .head ∨
      ∃ a, s.mem.links.next .head = .node a ∧ Safe xs ut since a := by
  rcases mem_ring_iff.mp (h.ring.next_mem (mem_ring_head)) with hh | ⟨a, ha, hn⟩
  · exact .inl hh
  · exact .inr ⟨a, hn, .inl ha⟩

theorem lt_brk (h : Core s xs ut) (hx : Published xs ut x) : x < s.mem.brk := by
  rcases hx with hx | ⟨t, ht⟩
  · exact (h.linked x hx).1
  · exact (h.gone x t ht).1

theorem fresh_unpublished (h : Core s xs ut) (hf : s.frames[c]? = some f)
    (hn : f.pc.fresh = some n) : ¬ Published xs ut n := by
  obtain ⟨-, hx, hu⟩ := (h.frame c f hf).fresh n hn
  intro h
  rcases h with hm | ⟨t, ht⟩
  · exact hx hm
  · rw [hu] at ht
    cases ht

theorem lock_unique (h : Core s xs ut) {c' : Nat} {f' : Frame} (hf : s.frames[c]? = some f)
    (hf' : s.frames[c']? = some f') (hl : f.locked = true) (hl' : f'.locked = true) : c = c' := by
  have h₁ := (h.frame c f hf).lock hl
  have h₂ := (h.frame c' f' hf').lock hl'
  rw [h₁] at h₂
  exact Option.some.inj h₂

end Core

/-! ## Frames after a step -/

/-- No step lets a critical section begin in the past. -/
theorem Quiesced.step {s s' : Sys} {t : Nat} (h : Quiesced s t) (ht : t < s.clock)
    (hsince : ∀ f' ∈ s'.frames, ∀ r, f'.since = some r →
      (∃ f ∈ s.frames, f.since = some r) ∨ r = s.clock) : Quiesced s' t := by
  intro f' hf' r hr
  rcases hsince f' hf' r hr with ⟨f, hf, hfr⟩ | rfl
  · exact h f hf r hfr
  · exact ht

theorem graceOver_quiesced {s : Sys} {t r : Nat} (hg : s.graceOver r = true) (ht : t < r) :
    Quiesced s t := by
  intro f hf q hq
  have hall := List.all_eq_true.mp hg f hf
  rw [hq] at hall
  simp only [decide_eq_true_eq] at hall
  omega

theorem quiesced_set {s s' : Sys} {c t : Nat} {f f' : Frame} (hf : s.frames[c]? = some f)
    (hframes : s'.frames = s.frames.set c f')
    (hsince : ∀ r, f'.since = some r → f.since = some r ∨ r = s.clock) (h : Quiesced s t)
    (ht : t < s.clock) : Quiesced s' t := by
  apply h.step ht
  intro g hg r hr
  rw [hframes] at hg
  rcases List.mem_or_eq_of_mem_set hg with hg | rfl
  · exact .inl ⟨g, hg, hr⟩
  · rcases hsince r hr with hr | hr
    · exact .inl ⟨f, List.mem_of_getElem? hf, hr⟩
    · exact .inr hr

theorem FrameOk.mono {s s' : Sys} {xs xs' : List Addr} {ut ut' : Addr → Option Nat} {c : Nat}
    {f : Frame} (h : FrameOk s xs ut c f)
    (hsafe : ∀ b ∈ f.pc.reads, Safe xs ut f.since b → Safe xs' ut' f.since b)
    (hfresh : ∀ n, f.pc.fresh = some n → n < s.mem.brk → n ∉ xs → ut n = none →
      n < s'.mem.brk ∧ n ∉ xs' ∧ ut' n = none)
    (hut : ∀ b t, ut b = some t → ut' b = some t ∧ (Quiesced s t → Quiesced s' t))
    (hlock : f.locked = true → s'.lock = some c) (hclock : s.clock ≤ s'.clock) :
    FrameOk s' xs' ut' c f where
  reads := fun b hb => hsafe b hb (h.reads b hb)
  fresh := by
    intro n hn
    obtain ⟨hlt, hx, hu⟩ := h.fresh n hn
    exact hfresh n hn hlt hx hu
  doomed := by
    intro b hb
    obtain ⟨t, ht, hsync, hfree⟩ := h.doomed b hb
    exact ⟨t, (hut b t ht).1, hsync, fun hp => (hut b t ht).2 (hfree hp)⟩
  lock := hlock
  since := fun r hr => Nat.lt_of_lt_of_le (h.since r hr) hclock

/-! ## Steps that leave the list as it is -/

namespace Core

variable {s s' : Sys} {xs : List Addr} {ut : Addr → Option Nat} {c : Nat} {f f' : Frame} {n : Addr}

/-- A call that keeps its private object, or holds a new one at an address beyond all others,
still shares it with no other call. -/
theorem apart_set (h : Core s xs ut) (hf : s.frames[c]? = some f)
    (hfresh : ∀ m, f'.pc.fresh = some m → f.pc.fresh = some m ∨ s.mem.brk ≤ m)
    (c₁ c₂ : Nat) (g₁ g₂ : Frame) (m : Addr) (hg₁ : (s.frames.set c f')[c₁]? = some g₁)
    (hg₂ : (s.frames.set c f')[c₂]? = some g₂) (hm₁ : g₁.pc.fresh = some m)
    (hm₂ : g₂.pc.fresh = some m) : c₁ = c₂ := by
  have other : ∀ c' g m, c' ≠ c → s.frames[c']? = some g → g.pc.fresh = some m →
      f'.pc.fresh ≠ some m := by
    intro c' g m hne hg hm hm'
    rcases hfresh m hm' with hm' | hle
    · exact hne (h.apart c' c g f m hg hf hm hm')
    · exact absurd ((h.frame c' g hg).fresh m hm).1 (Nat.not_lt.mpr hle)
  rcases getElem?_set_cases hf hg₁ with ⟨rfl, rfl⟩ | ⟨hne₁, hk₁⟩
  · rcases getElem?_set_cases hf hg₂ with ⟨rfl, rfl⟩ | ⟨hne₂, hk₂⟩
    · rfl
    · exact absurd hm₁ (other c₂ g₂ m hne₂ hk₂ hm₂)
  · rcases getElem?_set_cases hf hg₂ with ⟨rfl, rfl⟩ | ⟨hne₂, hk₂⟩
    · exact absurd hm₂ (other c₁ g₁ m hne₁ hk₁ hm₁)
    · exact h.apart c₁ c₂ g₁ g₂ m hk₁ hk₂ hm₁ hm₂

/-- A step that at most writes an object `n` which is not published keeps `xs` and `ut`. -/
theorem quiet (h : Core s xs ut) (hf : s.frames[c]? = some f)
    (hframes : s'.frames = s.frames.set c f') (hclock : s'.clock = s.clock + 1)
    (hcb : s'.callbacks = s.callbacks) (hoff : AgreeOff n s.mem s'.mem) (hnx : n ∉ xs)
    (hnu : ut n = none)
    (hlock : ∀ c' g, c' ≠ c → s.frames[c']? = some g → g.locked = true → s'.lock = some c')
    (hsince : ∀ r, f'.since = some r → f.since = some r ∨ r = s.clock)
    (hfresh : ∀ m, f'.pc.fresh = some m → f.pc.fresh = some m ∨ s.mem.brk ≤ m)
    (hok : FrameOk s' xs ut c f') : Core s' xs ut where
  ring := hoff.isRing h.ring hnx
  linked := fun b hb => ⟨Nat.lt_of_lt_of_le (h.linked b hb).1 hoff.brk, (h.linked b hb).2⟩
  gone := by
    intro b t ht
    obtain ⟨hlt, htc, hprev, hnext⟩ := h.gone b t ht
    have hne : Ptr.node b ≠ .node n := by
      intro e
      rw [Ptr.node.inj e, hnu] at ht
      cases ht
    rw [hoff.prev _ hne, hoff.next _ hne]
    exact ⟨Nat.lt_of_lt_of_le hlt hoff.brk, by omega, hprev, hnext⟩
  freed := by
    intro b hb
    rw [hoff.freed] at hb
    obtain ⟨t, ht, hq⟩ := h.freed b hb
    exact ⟨t, ht, quiesced_set hf hframes hsince hq (h.gone b t ht).2.1⟩
  pending := by
    rw [hcb]
    exact h.pending
  frame := by
    intro c' g hg
    rw [hframes] at hg
    rcases getElem?_set_cases hf hg with ⟨rfl, rfl⟩ | ⟨hne, hg⟩
    · exact hok
    · refine (h.frame c' g hg).mono (fun b _ hs => hs) ?_ ?_ (hlock c' g hne hg) (by omega)
      · exact fun m _ hlt hx hu => ⟨Nat.lt_of_lt_of_le hlt hoff.brk, hx, hu⟩
      · exact fun b t ht =>
          ⟨ht, fun hq => quiesced_set hf hframes hsince hq (h.gone b t ht).2.1⟩
  apart := by
    rw [hframes]
    exact h.apart_set hf hfresh

/-! ## Steps that change the list -/

/-- What another call may read stays safe when `b` is taken off the list: the call is in a
critical section that began before, or it searches under the lock, which is taken. -/
theorem safe_unlinks {xs' : List Addr} {b x : Addr} {c' : Nat} {g : Frame} (h : Core s xs ut)
    (htyped : Typed s) (hf : s.frames[c]? = some f) (hb : b ∈ xs) (hlocked : f.locked = true)
    (hkeep : ∀ x ∈ xs, x ≠ b → x ∈ xs') (hk : s.frames[c']? = some g) (hne : c' ≠ c)
    (hx : x ∈ g.pc.reads) (hs : Safe xs ut g.since x) :
    Safe xs' (Function.update ut b (some s.clock)) g.since x := by
  rcases hs with hm | ⟨r, t, hr, ht, hlt⟩
  · by_cases hxb : x = b
    · cases hsince : g.since with
      | some r =>
          exact .inr ⟨r, s.clock, rfl, by rw [hxb, Function.update_self],
            (h.frame c' g hk).since r hsince⟩
      | none =>
          have hfits := htyped g (List.mem_of_getElem? hk)
          have hgl := hfits.covered hx hsince
          exact absurd (h.lock_unique hk hf hgl hlocked) hne
    · exact .inl (hkeep x hm hxb)
  · have hxb : x ≠ b := by
      intro h
      subst h
      rw [(h.linked x hb).2] at ht
      cases ht
    exact .inr ⟨r, t, hr, by rw [Function.update_of_ne hxb, ht], hlt⟩

/-- Taking `b` off the list, with or without a private object put in its place. -/
theorem unlinks {xs' : List Addr} {b : Addr} (h : Core s xs ut) (htyped : Typed s)
    (hf : s.frames[c]? = some f) (hb : b ∈ xs) (hlocked : f.locked = true)
    (hframes : s'.frames = s.frames.set c { f with pc := .unlock b })
    (hclock : s'.clock = s.clock + 1) (hcb : s'.callbacks = s.callbacks) (hl : s'.lock = s.lock)
    (hfreed : s'.mem.freed = s.mem.freed) (hbrk : s'.mem.brk = s.mem.brk)
    (hring : IsRing s'.mem.links xs')
    (hnew : ∀ x ∈ xs', x ∈ xs ∧ x ≠ b ∨ f.pc.fresh = some x) (hkeep : ∀ x ∈ xs, x ≠ b → x ∈ xs')
    (hself : s'.mem.links.next (.node b) = s.mem.links.next (.node b) ∧
      s'.mem.links.prev (.node b) = .poison)
    (hoff : ∀ x, x ∉ xs → f.pc.fresh ≠ some x →
      s'.mem.links.next (.node x) = s.mem.links.next (.node x) ∧
        s'.mem.links.prev (.node x) = s.mem.links.prev (.node x)) :
    Core s' xs' (Function.update ut b (some s.clock)) := by
  have hfr := h.frame c f hf
  have hub : ut b = none := (h.linked b hb).2
  -- a recorded unlinking stays recorded, and its object stays off the list
  have hold : ∀ x t, ut x = some t → x ≠ b ∧ x ∉ xs ∧ f.pc.fresh ≠ some x ∧
      Function.update ut b (some s.clock) x = some t := by
    intro x t hx
    have hxb : x ≠ b := by
      intro h
      subst h
      rw [hub] at hx
      cases hx
    refine ⟨hxb, ?_, ?_, by rw [Function.update_of_ne hxb, hx]⟩
    · intro hm
      rw [(h.linked x hm).2] at hx
      cases hx
    · intro hn
      rw [(hfr.fresh x hn).2.2] at hx
      cases hx
  have hq : ∀ x t, ut x = some t → Quiesced s t → Quiesced s' t := fun x t hx hq =>
    quiesced_set hf hframes (fun _ hr => .inl hr) hq (h.gone x t hx).2.1
  have htarget : ∀ a t, t ≤ s.clock → (a ∈ xs ∨ ∃ t', ut a = some t' ∧ t ≤ t') →
      a ∈ xs' ∨ ∃ t', Function.update ut b (some s.clock) a = some t' ∧ t ≤ t' := by
    intro a t ht ha
    by_cases hab : a = b
    · exact .inr ⟨s.clock, by rw [hab, Function.update_self], ht⟩
    · rw [Function.update_of_ne hab]
      exact ha.imp (fun hm => hkeep a hm hab) id
  constructor
  case ring => exact hring
  case linked =>
    intro x hx
    rw [hbrk]
    rcases hnew x hx with ⟨hm, hne⟩ | hn
    · exact ⟨(h.linked x hm).1, by rw [Function.update_of_ne hne, (h.linked x hm).2]⟩
    · obtain ⟨hlt, hnx, hun⟩ := hfr.fresh x hn
      have hne : x ≠ b := fun e => hnx (e ▸ hb)
      exact ⟨hlt, by rw [Function.update_of_ne hne, hun]⟩
  case gone =>
    intro x t hx
    rw [hbrk, hclock]
    by_cases hxb : x = b
    · subst hxb
      rw [Function.update_self] at hx
      cases hx
      refine ⟨(h.linked x hb).1, Nat.lt_succ_self _, hself.2, ?_⟩
      rw [hself.1]
      rcases mem_ring_iff.mp (h.ring.next_mem (mem_ring_node.mpr hb)) with hh | ⟨a, ha, hn⟩
      · exact .inl hh
      · have hne : a ≠ x := by
          intro h
          subst h
          exact h.ring.next_ne_self hb hn
        exact .inr ⟨a, hn, .inl (hkeep a ha hne)⟩
    · rw [Function.update_of_ne hxb] at hx
      obtain ⟨-, hnx, hnf, -⟩ := hold x t hx
      obtain ⟨hlt, htc, hprev, hnext⟩ := h.gone x t hx
      rw [(hoff x hnx hnf).1, (hoff x hnx hnf).2]
      refine ⟨hlt, by omega, hprev, hnext.imp id ?_⟩
      intro h
      rcases h with ⟨a, hn, ha⟩
      exact ⟨a, hn, htarget a t (by omega) ha⟩
  case freed =>
    intro x hx
    rw [hfreed] at hx
    obtain ⟨t, ht, hqt⟩ := h.freed x hx
    exact ⟨t, (hold x t ht).2.2.2, hq x t ht hqt⟩
  case pending =>
    intro p hp
    rw [hcb] at hp
    obtain ⟨t, ht, hlt⟩ := h.pending p hp
    exact ⟨t, (hold p.1 t ht).2.2.2, hlt⟩
  case frame =>
    intro c' g hg
    rw [hframes] at hg
    rcases getElem?_set_cases hf hg with ⟨rfl, rfl⟩ | ⟨hne, hk⟩
    · refine ⟨by simp [Pc.reads], by simp [Pc.fresh], ?_, ?_, ?_⟩
      · intro x hx
        cases hx
        exact ⟨s.clock, Function.update_self .., by simp, by simp⟩
      · intro _
        rw [hl]
        exact hfr.lock hlocked
      · intro r hr
        have := hfr.since r hr
        omega
    · have hgk := h.frame c' g hk
      refine hgk.mono ?_ ?_ (fun x t hx => ⟨(hold x t hx).2.2.2, hq x t hx⟩) ?_ (by omega)
      · exact fun x hx hs => h.safe_unlinks htyped hf hb hlocked hkeep hk hne hx hs
      · intro m hm hlt hmx hmu
        have hmb : m ≠ b := fun e => hmx (e ▸ hb)
        refine ⟨by rw [hbrk]; exact hlt, ?_, by rw [Function.update_of_ne hmb, hmu]⟩
        intro hx
        rcases hnew m hx with ⟨hx, -⟩ | hn
        · exact hmx hx
        · exact hne (h.apart c' c g f m hk hf hm hn)
      · intro hgl
        rw [hl]
        exact hgk.lock hgl
  case apart =>
    rw [hframes]
    exact h.apart_set hf (by simp [Pc.fresh])

theorem adds {b : Addr} (h : Core s xs ut) (hf : s.frames[c]? = some f)
    (hpc : f.pc = .addLink b) :
    Core ({ s with mem := s.mem.listAddRcu b }.goto c f .addUnlock).tick (b :: xs) ut := by
  have hfr := h.frame c f hf
  have hn : f.pc.fresh = some b := by rw [hpc]; rfl
  obtain ⟨hlt, hbx, hub⟩ := hfr.fresh b hn
  have hlocked : f.locked = true := by simp [Frame.locked, hpc]
  have hq : ∀ t, t < s.clock → Quiesced s t →
      Quiesced ({ s with mem := s.mem.listAddRcu b }.goto c f .addUnlock).tick t :=
    fun t ht hq => quiesced_set hf rfl (fun _ hr => .inl hr) hq ht
  constructor
  case ring => exact h.ring.insert hbx
  case linked =>
    intro x hx
    rcases List.mem_cons.mp hx with rfl | hx
    · exact ⟨hlt, hub⟩
    · exact h.linked x hx
  case gone =>
    intro x t hx
    obtain ⟨hxlt, htc, hprev, hnext⟩ := h.gone x t hx
    have hxs : Ptr.node x ∉ LinkRing.ring xs := by
      rw [mem_ring_node]
      intro hm
      rw [(h.linked x hm).2] at hx
      cases hx
    have hxb : Ptr.node x ≠ .node b := by
      intro e
      rw [Ptr.node.inj e, hub] at hx
      cases hx
    obtain ⟨hoffn, hoffp⟩ := h.ring.insert_off hxs hxb
    refine ⟨hxlt, Nat.lt_succ_of_lt htc, hoffp.trans hprev, ?_⟩
    change (s.mem.links.insert (.node b) .head).next (.node x) = .head ∨
      ∃ a, (s.mem.links.insert (.node b) .head).next (.node x) = .node a ∧ _
    rw [hoffn]
    apply hnext.imp id
    intro h
    rcases h with ⟨a, ha, hm⟩
    exact ⟨a, ha, hm.imp (List.mem_cons_of_mem _) id⟩
  case freed =>
    intro x hx
    obtain ⟨t, ht, hqt⟩ := h.freed x hx
    exact ⟨t, ht, hq t (h.gone x t ht).2.1 hqt⟩
  case pending => exact h.pending
  case frame =>
    intro c' g hg
    rcases getElem?_set_cases hf hg with ⟨rfl, rfl⟩ | ⟨hne, hk⟩
    · refine ⟨by simp [Pc.reads], by simp [Pc.fresh], by simp [Pc.doomed], ?_, ?_⟩
      · exact fun _ => hfr.lock hlocked
      · exact fun r hr => Nat.lt_succ_of_lt (hfr.since r hr)
    · refine (h.frame c' g hk).mono ?_ ?_ ?_ (h.frame c' g hk).lock (Nat.le_succ _)
      · exact fun x _ hs => hs.imp (List.mem_cons_of_mem _) id
      · intro m hm hmlt hmx hmu
        refine ⟨hmlt, ?_, hmu⟩
        intro hx
        rcases List.mem_cons.mp hx with rfl | hx
        · exact hne (h.apart c' c g f m hk hf hm hn)
        · exact hmx hx
      · exact fun x t hx => ⟨hx, hq t (h.gone x t hx).2.1⟩
  case apart => exact h.apart_set hf (by simp [Pc.fresh])

/-! ## Reclamation and new calls -/

/-- Steps that keep the memory up to freed objects and the private objects where they were. -/
theorem reclaims (h : Core s xs ut) (hf : s.frames[c]? = some f) {pc : Pc}
    (hframes : s'.frames = s.frames.set c { f with pc := pc }) (hclock : s'.clock = s.clock + 1)
    (hl : s'.lock = s.lock) (hlinks : s'.mem.links = s.mem.links) (hbrk : s'.mem.brk = s.mem.brk)
    (hpc : pc.reads = [] ∧ pc.fresh = none ∧ pc.doomed = none)
    (hlocked : ({ f with pc := pc } : Frame).locked = false)
    (hfreed : ∀ b ∈ s'.mem.freed, b ∈ s.mem.freed ∨ ∃ t, ut b = some t ∧ Quiesced s t)
    (hcb : ∀ p ∈ s'.callbacks, p ∈ s.callbacks ∨ ∃ t, ut p.1 = some t ∧ t < p.2) :
    Core s' xs ut := by
  have hq : ∀ b t, ut b = some t → Quiesced s t → Quiesced s' t := fun b t hb hq =>
    quiesced_set hf hframes (fun _ hr => .inl hr) hq (h.gone b t hb).2.1
  constructor
  case ring =>
    rw [hlinks]
    exact h.ring
  case linked =>
    rw [hbrk]
    exact h.linked
  case gone =>
    intro b t hb
    obtain ⟨hlt, htc, hrest⟩ := h.gone b t hb
    rw [hlinks, hbrk]
    exact ⟨hlt, by omega, hrest⟩
  case freed =>
    intro b hb
    rcases hfreed b hb with hb | ⟨t, ht, hqt⟩
    · obtain ⟨t, ht, hqt⟩ := h.freed b hb
      exact ⟨t, ht, hq b t ht hqt⟩
    · exact ⟨t, ht, hq b t ht hqt⟩
  case pending =>
    intro p hp
    rcases hcb p hp with hp | hp
    · exact h.pending p hp
    · exact hp
  case frame =>
    intro c' g hg
    rw [hframes] at hg
    rcases getElem?_set_cases hf hg with ⟨rfl, rfl⟩ | ⟨-, hk⟩
    · refine ⟨by simp [hpc.1], by simp [hpc.2.1], by simp [hpc.2.2], ?_, ?_⟩
      · intro hlk
        rw [hlocked] at hlk
        cases hlk
      · intro r hr
        have := (h.frame c' f hf).since r hr
        omega
    · refine (h.frame c' g hk).mono (fun _ _ hs => hs) ?_ (fun b t hb => ⟨hb, hq b t hb⟩) ?_
        (by omega)
      · intro m _ hlt hx hu
        rw [hbrk]
        exact ⟨hlt, hx, hu⟩
      · rw [hl]
        exact (h.frame c' g hk).lock
  case apart =>
    rw [hframes]
    exact h.apart_set hf (by simp [hpc.2.1])

theorem calls (h : Core s xs ut) (op : Op) :
    Core { s with frames := s.frames ++ [Frame.new op] }.tick xs ut := by
  have hq : ∀ t, t < s.clock → Quiesced s t →
      Quiesced { s with frames := s.frames ++ [Frame.new op] }.tick t := by
    intro t ht hq
    refine hq.step ht fun g hg r hr => .inl ?_
    rcases List.mem_append.mp hg with hg | hg
    · exact ⟨g, hg, hr⟩
    · rw [List.mem_singleton.mp hg] at hr
      cases hr
  constructor
  case ring => exact h.ring
  case linked => exact h.linked
  case gone =>
    intro b t hb
    obtain ⟨hlt, htc, hrest⟩ := h.gone b t hb
    exact ⟨hlt, Nat.lt_succ_of_lt htc, hrest⟩
  case freed =>
    intro b hb
    obtain ⟨t, ht, hqt⟩ := h.freed b hb
    exact ⟨t, ht, hq t (h.gone b t ht).2.1 hqt⟩
  case pending => exact h.pending
  case frame =>
    intro c' g hg
    rcases getElem?_snoc_cases hg with hk | rfl
    · exact (h.frame c' g hk).mono (fun _ _ hs => hs) (fun _ _ hlt hx hu => ⟨hlt, hx, hu⟩)
        (fun b t hb => ⟨hb, hq t (h.gone b t hb).2.1⟩) (h.frame c' g hk).lock (Nat.le_succ _)
    · exact ⟨by simp [Frame.new, Pc.reads], by simp [Frame.new, Pc.fresh],
        by simp [Frame.new, Pc.doomed], by simp [Frame.new, Frame.locked], by simp [Frame.new]⟩
  case apart =>
    intro c₁ c₂ g₁ g₂ m hg₁ hg₂ hm₁ hm₂
    rcases getElem?_snoc_cases hg₁ with hk₁ | rfl
    · rcases getElem?_snoc_cases hg₂ with hk₂ | rfl
      · exact h.apart c₁ c₂ g₁ g₂ m hk₁ hk₂ hm₁ hm₂
      · simp [Frame.new, Pc.fresh] at hm₂
    · simp [Frame.new, Pc.fresh] at hm₁

theorem callback {i t : Nat} {b : Addr} (h : Core s xs ut) (hi : s.callbacks[i]? = some (b, t))
    (hg : s.graceOver t = true) :
    Core { s with mem := s.mem.kfree b, callbacks := s.callbacks.eraseIdx i }.tick xs ut := by
  have hq : ∀ r, r < s.clock → Quiesced s r →
      Quiesced { s with mem := s.mem.kfree b, callbacks := s.callbacks.eraseIdx i }.tick r :=
    fun r hr hq => hq.step hr fun g hg q hq => .inl ⟨g, hg, hq⟩
  constructor
  case ring => exact h.ring
  case linked => exact h.linked
  case gone =>
    intro x r hx
    obtain ⟨hlt, htc, hrest⟩ := h.gone x r hx
    exact ⟨hlt, Nat.lt_succ_of_lt htc, hrest⟩
  case freed =>
    intro x hx
    rcases List.mem_cons.mp hx with rfl | hx
    · obtain ⟨r, hr, hlt⟩ := h.pending _ (List.mem_of_getElem? hi)
      exact ⟨r, hr, hq r (h.gone x r hr).2.1 (graceOver_quiesced hg hlt)⟩
    · obtain ⟨r, hr, hqr⟩ := h.freed x hx
      exact ⟨r, hr, hq r (h.gone x r hr).2.1 hqr⟩
  case pending =>
    exact fun p hp => h.pending p (List.mem_of_mem_eraseIdx hp)
  case frame =>
    exact fun c' g hg => (h.frame c' g hg).mono (fun _ _ hs => hs)
      (fun _ _ hlt hx hu => ⟨hlt, hx, hu⟩) (fun x r hx => ⟨hx, hq r (h.gone x r hx).2.1⟩)
      (h.frame c' g hg).lock (Nat.le_succ _)
  case apart => exact h.apart

end Core

end KernelTrg.Books
