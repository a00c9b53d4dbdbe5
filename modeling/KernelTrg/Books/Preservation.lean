import KernelTrg.Books.Invariant
import KernelTrg.Lib.Runs

/-!
# The pointer invariant along a run

The one step that can break `Core` is a `list_replace_rcu` whose old object another
call has unlinked: its links no longer lead into the ring. `ReplacesLinked` excludes
it, and a poison value whose store faults excludes it by itself.
-/

namespace KernelTrg.Books

open LinkRing

variable {cfg : Config} {s s' t : Sys} {a : Action} {xs xs' : List Addr}
  {ut ut' : Addr → Option Nat} {c : Nat} {f f' : Frame} {alloc : Bool}

/-- The object a `list_replace_rcu` is about to replace. -/
def Pc.replacing : Pc → Option Addr
  | .replace b _ => some b
  | _ => none

/-- A `list_replace_rcu` about to run finds its old object linked; where a store through the
poison faults, nothing is asked. -/
def ReplacesLinked (cfg : Config) (s : Sys) (a : Action) : Prop :=
  cfg.poisonFaults = true ∨
    ∀ f ∈ s.stepping a, ∀ b ∈ f.pc.replacing, s.mem.links.prev (.node b) ≠ .poison

instance (cfg : Config) (s : Sys) (a : Action) : Decidable (ReplacesLinked cfg s a) :=
  inferInstanceAs (Decidable (_ ∨ _))

/-- How a step changes the list `xs` and the record of what was unlinked. -/
inductive Relists (s : Sys) (a : Action) (s' : Sys) (xs : List Addr) (ut : Addr → Option Nat) :
    List Addr → (Addr → Option Nat) → Prop where
  | same (hnext : ∀ x, Published xs ut x →
        s'.mem.links.next (.node x) = s.mem.links.next (.node x))
      (hentry : s'.entry = s.entry)
      (hhist : s'.hist = s.hist ∨ ∃ c b, s'.hist = .retired c b :: s.hist) :
      Relists s a s' xs ut xs ut
  | added (c : Nat) (alloc : Bool) (f : Frame) (b : Addr) (ha : a = .run c alloc)
      (hf : s.frames[c]? = some f) (hpc : f.pc = .addLink b)
      (hframes : s'.frames = s.frames.set c { f with pc := .addUnlock })
      (hlinks : s'.mem.links = s.mem.links.insert (.node b) .head)
      (hbook : s'.mem.book = s.mem.book) (hentry : s'.entry = s.entry) (hhist : s'.hist = s.hist) :
      Relists s a s' xs ut (b :: xs) ut
  | replaced (c : Nat) (alloc : Bool) (f : Frame) (b newB : Addr) (u : Update) (id : Int)
      (async : Bool) (ha : a = .run c alloc) (hf : s.frames[c]? = some f)
      (hpc : f.pc = .replace b newB) (hop : f.op = .updateBook u id async) (hb : b ∈ xs)
      (hframes : s'.frames = s.frames.set c { f with pc := .unlock b })
      (hlinks : s'.mem.links = s.mem.links.replace (.node b) (.node newB))
      (hbook : s'.mem.book = s.mem.book)
      (hentry : s'.entry = Function.update s.entry newB (s.entry b))
      (hhist : s'.hist = .replaced c u (s.entry b) b :: s.hist) :
      Relists s a s' xs ut (rename b newB xs) (Function.update ut b (some s.clock))
  | deleted (c : Nat) (alloc : Bool) (f : Frame) (b : Addr) (ha : a = .run c alloc)
      (hf : s.frames[c]? = some f) (hpc : f.pc = .del b) (hb : b ∈ xs)
      (hframes : s'.frames = s.frames.set c { f with pc := .unlock b })
      (hlinks : s'.mem.links = s.mem.links.unlink (.node b))
      (hbook : s'.mem.book = s.mem.book) (hentry : s'.entry = s.entry)
      (hhist : s'.hist = .deleted c b :: s.hist) :
      Relists s a s' xs ut (xs.filter (· ≠ b)) (Function.update ut b (some s.clock))

theorem next_off {m m' : Mem} {n : Addr} (hoff : AgreeOff n m m') (hn : n ∉ xs ∧ ut n = none)
    (x : Addr) (hx : Published xs ut x) : m'.links.next (.node x) = m.links.next (.node x) := by
  apply hoff.next _
  intro heq
  rw [Ptr.node.inj heq] at hx
  rcases hx with hx | ⟨t, ht⟩
  · exact hn.1 hx
  · rw [hn.2] at ht
    cases ht

/-! ## The stepping frame -/

/-- What has to be shown of a frame that holds no object of its own. -/
theorem FrameOk.search (hr : ∀ b ∈ f.pc.reads, Safe xs ut f.since b) (hn : f.pc.fresh = none)
    (hd : f.pc.doomed = none) (hl : f.locked = true → s.lock = some c)
    (hs : ∀ r, f.since = some r → r < s.clock) : FrameOk s xs ut c f where
  reads := hr
  fresh := by simp [hn]
  doomed := by simp [hd]
  lock := hl
  since := hs

theorem Sys.hit_holds (op : Op) (b : Addr) : (∀ x ∈ (Sys.hit op b).reads, x = b) ∧
    (Sys.hit op b).fresh = none ∧ (Sys.hit op b).doomed = none := by
  cases op <;> simp [Sys.hit, Pc.reads, Pc.fresh, Pc.doomed]

theorem Frame.locked_hit {b : Addr} (h : ({ f with pc := Sys.hit f.op b } : Frame).locked = true) :
    f.op.deletes = true := by
  cases hop : f.op <;> simp_all [Sys.hit, Frame.locked, Op.deletes]

namespace Core

theorem local_ok (h : Core s xs ut) (hf : s.frames[c]? = some f) (hfits : f.Fits)
    (hl : Local s f f') : FrameOk { s with frames := s.frames.set c f' }.tick xs ut c f' := by
  have hfr := h.frame c f hf
  have hsince : ∀ r, f.since = some r → r < s.clock + 1 := fun r hr =>
    Nat.lt_succ_of_lt (hfr.since r hr)
  have hs := hfits.suits
  -- a cursor just loaded is the head or an object the call may go on to
  have walk : ∀ {p : Ptr Addr}, (p = .head ∨ ∃ x, p = .node x ∧ Safe xs ut f.since x) →
      ∀ b ∈ (Pc.walk p).reads, Safe xs ut f.since b := by
    intro p hp b hb
    rcases hp with rfl | ⟨x, rfl, hx⟩
    · cases hb
    · rw [List.mem_singleton.mp hb]
      exact hx
  cases hl with
  | noMemory hpc =>
      exact .search (by simp [Pc.reads]) rfl rfl (by simp [Frame.locked]) hsince
  | enter hpc hdel =>
      refine .search (by simp [Pc.reads]) rfl rfl (by simp [Frame.locked, hdel]) ?_
      intro r hr
      cases hr
      exact Nat.lt_succ_self _
  | first hpc =>
      refine .search (walk (h.safe_first f.since)) rfl rfl ?_ hsince
      exact fun hlk => hfr.lock (by simpa [Frame.locked, hpc] using hlk)
  | finish hpc =>
      refine .search (by simp [Pc.reads]) rfl rfl ?_ hsince
      exact fun hlk => hfr.lock (by simpa [Frame.locked, hpc] using hlk)
  | hit b hpc hid =>
      obtain ⟨hreads, hfresh, hdoomed⟩ := Sys.hit_holds f.op b
      refine .search ?_ hfresh hdoomed ?_ hsince
      · intro x hx
        rw [hreads x hx]
        exact hfr.reads b (by simp [hpc, Pc.reads])
      · exact fun hlk => hfr.lock (by simpa [Frame.locked, hpc] using Frame.locked_hit hlk)
  | miss b hpc hid =>
      refine .search ?_ rfl rfl ?_ hsince
      · simpa [hpc, Pc.reads] using hfr.reads
      · exact fun hlk => hfr.lock (by simpa [Frame.locked, hpc] using hlk)
  | wild p hpc => exact .search (by simp [Pc.reads]) rfl rfl (by simp [Frame.locked]) (by simp)
  | next b hpc =>
      refine .search (walk (h.safe_next (hfr.reads b (by simp [hpc, Pc.reads])))) rfl rfl ?_ hsince
      exact fun hlk => hfr.lock (by simpa [Frame.locked, hpc] using hlk)
  | refuse b u id async hpc hop hr =>
      exact .search (by simp [Pc.reads]) rfl rfl (by simp [Frame.locked, hop, Op.deletes]) hsince
  | accept b u id async hpc hop hr =>
      refine .search ?_ rfl rfl (by simp [Frame.locked]) hsince
      simpa [hpc, Pc.reads] using hfr.reads
  | giveUp b hpc =>
      have hdel : f.op.deletes = false := by
        obtain ⟨u, id, async, hop⟩ := hfits.op_update (by simp [hpc, Pc.suits])
        simp [hop, Op.deletes]
      exact .search (by simp [Pc.reads]) rfl rfl (by simp [Frame.locked, hdel]) hsince
  | leave b hpc =>
      obtain ⟨t, ht, -⟩ := hfr.doomed b (by simp [hpc, Pc.doomed])
      refine ⟨by simp [Pc.reads], by simp [Pc.fresh], ?_, by simp [Frame.locked], by simp⟩
      intro x hx
      cases hx
      exact ⟨t, ht, by simp, by simp⟩
  | sync b hpc ha =>
      obtain ⟨t, ht, -⟩ := hfr.doomed b (by simp [hpc, Pc.doomed])
      refine ⟨by simp [Pc.reads], by simp [Pc.fresh], ?_, by simp [Frame.locked], hsince⟩
      intro x hx
      cases hx
      refine ⟨t, ht, ?_, by simp⟩
      intro r hr
      cases hr
      exact (h.gone b t ht).2.1
  | grace b r hpc hg =>
      obtain ⟨t, ht, hsync, -⟩ := hfr.doomed b (by simp [hpc, Pc.doomed])
      refine ⟨by simp [Pc.reads], by simp [Pc.fresh], ?_, by simp [Frame.locked], hsince⟩
      intro x hx
      cases hx
      refine ⟨t, ht, by simp, fun _ => ?_⟩
      exact quiesced_set hf rfl (fun _ hr => .inl hr) (graceOver_quiesced hg (hsync r hpc))
        (h.gone b t ht).2.1
  | found b hpc => exact .search (by simp [Pc.reads]) rfl rfl (by simp [Frame.locked]) (by simp)
  | late b hpc => exact .search (by simp [Pc.reads]) rfl rfl (by simp [Frame.locked]) hsince
  | print b hpc =>
      have hop : f.op = .printBook f.op.id := by simpa [hpc, Pc.suits] using hs
      have hdel : f.op.deletes = false := by rw [hop]; rfl
      exact .search (by simp [Pc.reads]) rfl rfl (by simp [Frame.locked, hdel]) hsince
  | exit hpc => exact .search (by simp [Pc.reads]) rfl rfl (by simp [Frame.locked]) (by simp)

/-! ## One step -/

theorem quiet_frame (h : Core s xs ut) (hf : s.frames[c]? = some f) (hfits : f.Fits)
    (hl : Local s f f') : Core { s with frames := s.frames.set c f' }.tick xs ut := by
  obtain ⟨hnx, hnu⟩ := h.brk_fresh
  refine h.quiet hf rfl rfl rfl (.refl _ _) hnx hnu ?_ ?_ ?_ (h.local_ok hf hfits hl)
  · exact fun c' g _ hg => (h.frame c' g hg).lock
  · intro r hr
    cases hl with
    | enter hpc hdel hadd => exact .inr (Option.some.inj hr).symm
    | wild p hpc hp | leave b hpc | found b hpc | exit hpc hdel => cases hr
    | _ => exact .inl hr
  · intro m hm
    cases hl with
    | hit b hpc hid =>
        rw [(Sys.hit_holds f.op b).2.1] at hm
        cases hm
    | _ => cases hm

theorem acquire (h : Core s xs ut) (hf : s.frames[c]? = some f) {pc : Pc} (hfree : s.lock = none)
    (hpc : f.pc = .start ∧ f.op.deletes = true ∧ pc = .first ∨
      (∃ b newB, f.pc = .lock b newB ∧ pc = .replace b newB) ∨
      ∃ b, f.pc = .addLock b ∧ pc = .addLink b) :
    Core ({ s with lock := some c }.goto c f pc).tick xs ut := by
  obtain ⟨hnx, hnu⟩ := h.brk_fresh
  have hfr := h.frame c f hf
  have hsame : pc.reads = f.pc.reads ∧ pc.fresh = f.pc.fresh ∧ pc.doomed = none := by
    rcases hpc with ⟨hpc, -, rfl⟩ | ⟨b, n, hpc, rfl⟩ | ⟨b, hpc, rfl⟩ <;> rw [hpc] <;>
      exact ⟨rfl, rfl, rfl⟩
  refine h.quiet hf rfl rfl rfl (.refl _ _) hnx hnu ?lock (fun r hr => .inl hr) ?fresh ?ok
  case lock =>
    intro c' g _ hg hlk
    have hheld := (h.frame c' g hg).lock hlk
    rw [hfree] at hheld
    cases hheld
  case fresh =>
    intro m hm
    exact .inl (hsame.2.1 ▸ hm)
  case ok =>
    constructor
    case reads =>
      intro b hb
      exact hfr.reads b (hsame.1 ▸ hb)
    case fresh =>
      intro m hm
      exact hfr.fresh m (hsame.2.1 ▸ hm)
    case doomed =>
      intro b hb
      change pc.doomed = some b at hb
      rw [hsame.2.2] at hb
      cases hb
    case lock =>
      exact fun _ => rfl
    case since =>
      exact fun r hr => Nat.lt_succ_of_lt (hfr.since r hr)

theorem release (h : Core s xs ut) (hf : s.frames[c]? = some f) {pc : Pc}
    (hpc : (∃ b, f.pc = .unlock b ∧ pc = if f.op.deletes then .reclaim b else .leave b) ∨
      f.pc = .addUnlock ∧ pc = .done none ∨
      f.pc = .exit ∧ f.op.deletes = true ∧ pc = .done f.op.failure) :
    Core ({ s with lock := none }.goto c f pc).tick xs ut := by
  obtain ⟨hnx, hnu⟩ := h.brk_fresh
  have hfr := h.frame c f hf
  have hsame : pc.reads = [] ∧ pc.fresh = none ∧ (∀ b, pc.doomed = some b → f.pc.doomed = some b) ∧
      (∀ b r, pc ≠ .sync b r) ∧ (∀ b, pc ≠ .free b) := by
    rcases hpc with ⟨b, hpc, rfl⟩ | ⟨hpc, rfl⟩ | ⟨hpc, -, rfl⟩
    · rw [hpc]
      split <;> simp [Pc.reads, Pc.fresh, Pc.doomed]
    · simp [Pc.reads, Pc.fresh, Pc.doomed]
    · simp [Pc.reads, Pc.fresh, Pc.doomed]
  have hlocked : f.locked = true ∧ ({ f with pc := pc } : Frame).locked = false := by
    rcases hpc with ⟨b, hpc, rfl⟩ | ⟨hpc, rfl⟩ | ⟨hpc, hdel, rfl⟩
    · refine ⟨by simp [Frame.locked, hpc], ?_⟩
      split <;> rfl
    · exact ⟨by simp [Frame.locked, hpc], rfl⟩
    · exact ⟨by simp [Frame.locked, hpc, hdel], rfl⟩
  refine h.quiet hf rfl rfl rfl (.refl _ _) hnx hnu ?lock (fun r hr => .inl hr) ?fresh ?ok
  case lock =>
    intro c' g hne hg hlk
    exact absurd (h.lock_unique hg hf hlk hlocked.1) hne
  case fresh =>
    intro m hm
    change pc.fresh = some m at hm
    rw [hsame.2.1] at hm
    cases hm
  case ok =>
    constructor
    case reads =>
      intro b hb
      change b ∈ pc.reads at hb
      rw [hsame.1] at hb
      cases hb
    case fresh =>
      intro m hm
      change pc.fresh = some m at hm
      rw [hsame.2.1] at hm
      cases hm
    case doomed =>
      intro b hb
      obtain ⟨t, ht, -⟩ := hfr.doomed b (hsame.2.2.1 b hb)
      exact ⟨t, ht, fun r hr => absurd hr (hsame.2.2.2.1 b r), fun hp => absurd hp (hsame.2.2.2.2 b)⟩
    case lock =>
      intro hlk
      rw [hlocked.2] at hlk
      cases hlk
    case since =>
      exact fun r hr => Nat.lt_succ_of_lt (hfr.since r hr)

/-- A step of a call on an object `n` that is its own, or is just being allocated. -/
theorem writes (h : Core s xs ut) (hf : s.frames[c]? = some f) {m : Mem} {n : Addr} {pc : Pc}
    {since : Option Nat} (hoff : AgreeOff n s.mem m)
    (hn : f.pc.fresh = some n ∨ n = s.mem.brk ∧ m.brk = s.mem.brk + 1)
    (hpc : ∀ b ∈ pc.reads, b ∈ f.pc.reads) (hfresh : pc.fresh = some n ∨ pc.fresh = none)
    (hdoomed : pc.doomed = none) (hsince : since = f.since ∨ since = none ∧ pc.reads = [])
    (hl : ({ op := f.op, pc := pc, since := since } : Frame).locked = false) :
    Core ({ s with mem := m }.goto c { f with since := since } pc).tick xs ut := by
  have hfr := h.frame c f hf
  have hown : n ∉ xs ∧ ut n = none ∧ n < m.brk := by
    rcases hn with hn | ⟨rfl, hbrk⟩
    · obtain ⟨hlt, hx, hu⟩ := hfr.fresh n hn
      exact ⟨hx, hu, Nat.lt_of_lt_of_le hlt hoff.brk⟩
    · obtain ⟨hx, hu⟩ := h.brk_fresh
      exact ⟨hx, hu, hbrk ▸ Nat.lt_succ_self _⟩
  have hkeep : ∀ r, since = some r → f.since = some r := by
    intro r hr
    rcases hsince with he | ⟨he, -⟩
    · exact he ▸ hr
    · rw [he] at hr
      cases hr
  refine h.quiet hf rfl rfl rfl hoff hown.1 hown.2.1 ?lock (fun r hr => .inl (hkeep r hr)) ?fresh
    ?ok
  case lock =>
    exact fun c' g _ hg => (h.frame c' g hg).lock
  case fresh =>
    intro x hx
    rcases hfresh with he | he
    · have hxn : n = x := Option.some.inj (he.symm.trans hx)
      subst hxn
      exact hn.imp id fun hb => Nat.le_of_eq hb.1.symm
    · cases he.symm.trans hx
  case ok =>
    constructor
    case reads =>
      intro b hb
      rcases hsince with he | ⟨-, he⟩
      · subst he
        exact hfr.reads b (hpc b hb)
      · change b ∈ pc.reads at hb
        rw [he] at hb
        cases hb
    case fresh =>
      intro x hx
      rcases hfresh with he | he
      · have hxn : n = x := Option.some.inj (he.symm.trans hx)
        subst hxn
        exact ⟨hown.2.2, hown.1, hown.2.1⟩
      · cases he.symm.trans hx
    case doomed =>
      intro b hb
      cases hdoomed.symm.trans hb
    case lock =>
      intro hlk
      cases hl.symm.trans hlk
    case since =>
      exact fun r hr => Nat.lt_succ_of_lt (hfr.since r (hkeep r hr))

theorem replaces (h : Core s xs ut) (htyped : Typed s) (hf : s.frames[c]? = some f) {b newB : Addr}
    (hpc : f.pc = .replace b newB) (hb : b ∈ xs) (entry : Addr → Addr) (hist : List Event) :
    Core ({ s with mem := s.mem.listReplaceRcu b newB, entry := entry, hist := hist }.goto c f
      (.unlock b)).tick (rename b newB xs) (Function.update ut b (some s.clock)) := by
  obtain ⟨-, hnx, -⟩ := (h.frame c f hf).fresh newB (by simp [hpc, Pc.fresh])
  have hfresh : ∀ x, f.pc.fresh = some x ↔ x = newB := by simp [hpc, Pc.fresh, eq_comm]
  refine h.unlinks htyped hf hb (by simp [Frame.locked, hpc]) rfl rfl rfl rfl rfl rfl
    (h.ring.replace hb hnx) ?_ ?_ (h.ring.replace_self hb hnx) ?_
  · intro x hx
    rcases (mem_rename hb).mp hx with rfl | hx
    · exact .inr ((hfresh x).mpr rfl)
    · exact .inl hx
  · exact fun x hx hne => (mem_rename hb).mpr (.inr ⟨hx, hne⟩)
  · intro x hx hne
    refine h.ring.replace_off hb hnx (by simpa using hx) fun e => hne ?_
    exact (hfresh x).mpr (Ptr.node.inj e)

theorem deletes (h : Core s xs ut) (htyped : Typed s) (hf : s.frames[c]? = some f) {b : Addr}
    (hpc : f.pc = .del b) (hb : b ∈ xs) (hist : List Event) :
    Core ({ s with mem := s.mem.listDelRcu b, hist := hist }.goto c f (.unlock b)).tick
      (xs.filter (· ≠ b)) (Function.update ut b (some s.clock)) := by
  have hfits := htyped f (List.mem_of_getElem? hf)
  have hdel : f.op.deletes = true := by simpa [hpc, Pc.suits] using hfits.suits
  refine h.unlinks htyped hf hb (hfits.locked (by simp [hpc, Pc.inside]) hdel) rfl rfl rfl rfl rfl
    rfl (h.ring.unlink hb) ?_ ?_ (h.ring.unlink_self hb) ?_
  · exact fun x hx => .inl (by simpa using hx)
  · exact fun x hx hne => by simpa using ⟨hx, hne⟩
  · exact fun x hx _ => h.ring.unlink_off hb (by simpa using hx)

theorem mem_of_del (h : Core s xs ut) (htyped : Typed s) (hf : s.frames[c]? = some f) {b : Addr}
    (hpc : f.pc = .del b) : b ∈ xs := by
  have hfits := htyped f (List.mem_of_getElem? hf)
  have hbare := hfits.bare (by simpa [hpc, Pc.suits] using hfits.suits)
  rcases (h.frame c f hf).reads b (by simp [hpc, Pc.reads]) with hb | ⟨r, t, hr, -⟩
  · exact hb
  · rw [hbare] at hr
    cases hr

theorem trans (h : Core s xs ut) (htyped : Typed s) (hf : s.frames[c]? = some f)
    (hg : cfg.poisonFaults = true ∨
      ∀ b newB, f.pc = .replace b newB → s.mem.links.prev (.node b) ≠ .poison)
    (ht : Trans cfg s c f alloc t) :
    ∃ xs' ut', Core t.tick xs' ut' ∧ Relists s (.run c alloc) t.tick xs ut xs' ut' := by
  have hfr := h.frame c f hf
  have hfits := htyped f (List.mem_of_getElem? hf)
  cases ht with
  | quiet f' hl ha => exact ⟨xs, ut, h.quiet_frame hf hfits hl, .same (fun _ _ => rfl) rfl (.inl rfl)⟩
  | acquire pc hfree hpc => exact ⟨xs, ut, h.acquire hf hfree hpc, .same (fun _ _ => rfl) rfl (.inl rfl)⟩
  | release pc hpc => exact ⟨xs, ut, h.release hf hpc, .same (fun _ _ => rfl) rfl (.inl rfl)⟩
  | alloc pc ha hpc =>
      have hoff := AgreeOff.kzalloc s.mem
      refine ⟨xs, ut, ?_, .same (next_off hoff h.brk_fresh) rfl (.inl rfl)⟩
      rcases hpc with ⟨id, name, author, hop, hpc, rfl⟩ | ⟨b, hpc, rfl⟩
      · exact h.writes hf hoff (.inr ⟨rfl, rfl⟩) (by simp [Pc.reads]) (.inl rfl) rfl (.inl rfl) rfl
      · exact h.writes hf hoff (.inr ⟨rfl, rfl⟩) (by simp [hpc, Pc.reads]) (.inl rfl) rfl (.inl rfl)
          rfl
  | copy b newB u id async hpc hop =>
      have hoff : AgreeOff newB s.mem ((s.mem.memcpy newB b).setBorrow newB u.flag) :=
        (AgreeOff.memcpy s.mem newB b).trans (AgreeOff.setBook ..)
      have hn : f.pc.fresh = some newB := by rw [hpc]; rfl
      refine ⟨xs, ut, ?_, .same (next_off hoff (hfr.fresh newB hn).2) rfl (.inl rfl)⟩
      exact h.writes hf hoff (.inl hn) (by simp [hpc, Pc.reads]) (.inl rfl) rfl (.inl rfl) rfl
  | init b v hpc hv =>
      have hn : f.pc.fresh = some b := by rw [hpc]; rfl
      refine ⟨xs, ut, ?_, .same (fun _ _ => rfl) rfl (.inl rfl)⟩
      exact h.writes hf (AgreeOff.setBook s.mem b v) (.inl hn) (by simp [Pc.reads]) (.inl rfl) rfl
        (.inl rfl) rfl
  | replaceFault b newB hpc hcfg hp =>
      have hoff : AgreeOff newB s.mem (Sys.replaceFault s.mem b newB) :=
        ⟨fun _ hne => Function.update_of_ne hne .., fun _ hne => Function.update_of_ne hne ..,
          fun _ _ => rfl, rfl, Nat.le_refl _⟩
      have hn : f.pc.fresh = some newB := by rw [hpc]; rfl
      refine ⟨xs, ut, ?_, .same (next_off hoff (hfr.fresh newB hn).2) rfl (.inl rfl)⟩
      exact h.writes hf hoff (.inl hn) (by simp [Pc.reads]) (.inr rfl) rfl (.inr ⟨rfl, rfl⟩) rfl
  | replace b newB u id async hpc hop hp =>
      have hprev : s.mem.links.prev (.node b) ≠ .poison := by
        rcases hg with hcfg | hg
        · exact fun e => hp ⟨hcfg, e⟩
        · exact hg b newB hpc
      have hb := h.mem_of_prev (hfr.reads b (by simp [hpc, Pc.reads])) hprev
      exact ⟨_, _, h.replaces htyped hf hpc hb _ _,
        .replaced c alloc f b newB u id async rfl hf hpc hop hb rfl rfl rfl rfl rfl⟩
  | delFault b hpc hcfg hp => exact absurd hp (h.prev_of_mem (h.mem_of_del htyped hf hpc))
  | del b hpc hp =>
      have hb := h.mem_of_del htyped hf hpc
      exact ⟨_, _, h.deletes htyped hf hpc hb _, .deleted c alloc f b rfl hf hpc hb rfl rfl rfl rfl rfl⟩
  | add b hpc => exact ⟨_, _, h.adds hf hpc, .added c alloc f b rfl hf hpc rfl rfl rfl rfl rfl⟩
  | callRcu b hpc ha =>
      obtain ⟨t, ht, -⟩ := hfr.doomed b (by simp [hpc, Pc.doomed])
      refine ⟨xs, ut, ?_, .same (fun _ _ => rfl) rfl (.inr ⟨c, b, rfl⟩)⟩
      refine h.reclaims hf rfl rfl rfl rfl rfl ⟨rfl, rfl, rfl⟩ rfl (fun _ hx => .inl hx) ?_
      intro p hp
      rcases List.mem_append.mp hp with hp | hp
      · exact .inl hp
      · rw [List.mem_singleton.mp hp]
        exact .inr ⟨t, ht, (h.gone b t ht).2.1⟩
  | free b hpc =>
      obtain ⟨t, ht, -, hfree⟩ := hfr.doomed b (by simp [hpc, Pc.doomed])
      refine ⟨xs, ut, ?_, .same (fun _ _ => rfl) rfl (.inr ⟨c, b, rfl⟩)⟩
      refine h.reclaims hf rfl rfl rfl rfl rfl ⟨rfl, rfl, rfl⟩ rfl ?_ (fun _ hp => .inl hp)
      intro x hx
      rcases List.mem_cons.mp hx with rfl | hx
      · exact .inr ⟨t, ht, hfree hpc⟩
      · exact .inl hx

/-- Steps that replace linked objects only keep the pointer invariant. -/
theorem step (h : Core s xs ut) (htyped : Typed s) (hg : ReplacesLinked cfg s a)
    (hs : s.step cfg a = some s') : ∃ xs' ut', Core s' xs' ut' ∧ Relists s a s' xs ut xs' ut' := by
  rcases step_cases hs with
    ⟨op, rfl, rfl⟩ | ⟨c, alloc, f, t, rfl, hf, ht, rfl⟩ | ⟨i, b, t, rfl, hi, hgrace, rfl⟩
  · exact ⟨xs, ut, h.calls op, .same (fun _ _ => rfl) rfl (.inl rfl)⟩
  · refine h.trans htyped hf (hg.imp id fun hg b newB hpc => ?_) ht
    exact hg f hf b (by simp [hpc, Pc.replacing])
  · exact ⟨xs, ut, h.callback hi hgrace, .same (fun _ _ => rfl) rfl (.inl rfl)⟩

end Core

/-! ## Where a run begins -/

/-- A memory whose list consists of the allocated objects `xs`, nothing having been freed. -/
structure Booted (m : Mem) (xs : List Addr) : Prop where
  ring : IsRing m.links xs
  linked : ∀ b ∈ xs, b < m.brk
  freed : m.freed = []

theorem Booted.core {m : Mem} (h : Booted m xs) (ops : List Op) :
    Core (Sys.boot m ops) xs (fun _ => none) := by
  have hnew : ∀ (c : Nat) (f : Frame), (Sys.boot m ops).frames[c]? = some f →
      ∃ op, f = Frame.new op := by
    intro c f hf
    obtain ⟨op, -, rfl⟩ := List.mem_map.mp (List.mem_of_getElem? hf)
    exact ⟨op, rfl⟩
  constructor
  case ring => exact h.ring
  case linked => exact fun b hb => ⟨h.linked b hb, rfl⟩
  case gone =>
    exact fun b t ht => by cases ht
  case freed =>
    intro b hb
    have hempty : b ∈ m.freed := hb
    rw [h.freed] at hempty
    cases hempty
  case pending =>
    exact fun p hp => by cases hp
  case frame =>
    intro c f hf
    obtain ⟨op, rfl⟩ := hnew c f hf
    exact .search (by simp [Frame.new, Pc.reads]) rfl rfl (by simp [Frame.new, Frame.locked])
      (by simp [Frame.new])
  case apart =>
    intro c c' f f' n hf _ hn
    obtain ⟨op, rfl⟩ := hnew c f hf
    cases hn

end KernelTrg.Books
