import KernelTrg.Books.Machine
import Mathlib.Algebra.GroupWithZero.Nat

/-!
# What one step can do

`Local` lists the steps that change the stepping frame only, `Trans` the others.
The invariants are proved from these two, not from `frameStep`.
-/

namespace KernelTrg.Books

open LinkRing

/-- Frame `f` steps to the given frame and nothing shared changes. -/
inductive Local (s : Sys) (f : Frame) : Frame → Prop where
  | noMemory (hpc : f.pc = .start) (hadd : f.op.success = none) (hdel : f.op.deletes = false) :
      Local s f { f with pc := .done none }
  | enter (hpc : f.pc = .start) (hdel : f.op.deletes = false) (hadd : f.op.adds = false) :
      Local s f { f with since := some s.clock, pc := .first }
  | first (hpc : f.pc = .first) : Local s f { f with pc := .walk (s.mem.links.next .head) }
  | finish (hpc : f.pc = .walk .head) : Local s f { f with pc := .exit }
  | hit (b : Addr) (hpc : f.pc = .walk (.node b)) (hid : (s.mem.book b).id = f.op.id) :
      Local s f { f with pc := Sys.hit f.op b }
  | miss (b : Addr) (hpc : f.pc = .walk (.node b)) (hid : (s.mem.book b).id ≠ f.op.id) :
      Local s f { f with pc := .next b }
  | wild (p : Ptr Addr) (hpc : f.pc = .walk p) (hp : p = .null ∨ p = .poison) :
      Local s f { f with since := none, pc := .oops }
  | next (b : Addr) (hpc : f.pc = .next b) :
      Local s f { f with pc := .walk (s.mem.links.next (.node b)) }
  | refuse (b : Addr) (u : Update) (id : Int) (async : Bool) (hpc : f.pc = .test b)
      (hop : f.op = .updateBook u id async) (hr : u.refuses (s.mem.book b).borrow = true) :
      Local s f { f with pc := .exit }
  | accept (b : Addr) (u : Update) (id : Int) (async : Bool) (hpc : f.pc = .test b)
      (hop : f.op = .updateBook u id async) (hr : u.refuses (s.mem.book b).borrow = false) :
      Local s f { f with pc := .alloc b }
  | giveUp (b : Addr) (hpc : f.pc = .alloc b) : Local s f { f with pc := .exit }
  | leave (b : Addr) (hpc : f.pc = .leave b) :
      Local s f { f with since := none, pc := .reclaim b }
  | sync (b : Addr) (hpc : f.pc = .reclaim b) (ha : f.op.async = false) :
      Local s f { f with pc := .sync b s.clock }
  | grace (b : Addr) (t : Nat) (hpc : f.pc = .sync b t) (hg : s.graceOver t = true) :
      Local s f { f with pc := .free b }
  | found (b : Addr) (hpc : f.pc = .found b) : Local s f { f with since := none, pc := .late b }
  | late (b : Addr) (hpc : f.pc = .late b) :
      Local s f { f with pc := .done (some (s.mem.book b).borrow) }
  | print (b : Addr) (hpc : f.pc = .print b) : Local s f { f with pc := .exit }
  | exit (hpc : f.pc = .exit) (hdel : f.op.deletes = false) :
      Local s f { f with since := none, pc := .done f.op.failure }

/-- A step of frame `c`, by its effect on the shared state. -/
inductive Trans (cfg : Config) (s : Sys) (c : Nat) (f : Frame) (alloc : Bool) : Sys → Prop where
  | quiet (f' : Frame) (h : Local s f f') (ha : ∀ b, f.pc = .alloc b → alloc = false) :
      Trans cfg s c f alloc { s with frames := s.frames.set c f' }
  | acquire (pc : Pc) (hfree : s.lock = none)
      (hpc : f.pc = .start ∧ f.op.deletes = true ∧ pc = .first ∨
        (∃ b newB, f.pc = .lock b newB ∧ pc = .replace b newB) ∨
        ∃ b, f.pc = .addLock b ∧ pc = .addLink b) :
      Trans cfg s c f alloc ({ s with lock := some c }.goto c f pc)
  | release (pc : Pc)
      (hpc : (∃ b, f.pc = .unlock b ∧ pc = if f.op.deletes then .reclaim b else .leave b) ∨
        f.pc = .addUnlock ∧ pc = .done none ∨
        f.pc = .exit ∧ f.op.deletes = true ∧ pc = .done f.op.failure) :
      Trans cfg s c f alloc ({ s with lock := none }.goto c f pc)
  | alloc (pc : Pc) (ha : alloc = true)
      (hpc : (∃ id name author, f.op = .addBook id name author ∧ f.pc = .start ∧
          pc = .init s.mem.brk) ∨
        ∃ b, f.pc = .alloc b ∧ pc = .copy b s.mem.brk) :
      Trans cfg s c f alloc ({ s with mem := s.mem.kzalloc }.goto c f pc)
  | copy (b newB : Addr) (u : Update) (id : Int) (async : Bool) (hpc : f.pc = .copy b newB)
      (hop : f.op = .updateBook u id async) :
      Trans cfg s c f alloc
        ({ s with mem := (s.mem.memcpy newB b).setBorrow newB u.flag }.goto c f (.lock b newB))
  | init (b : Addr) (v : Book) (hpc : f.pc = .init b) (hv : v.borrow = 0) :
      Trans cfg s c f alloc ({ s with mem := s.mem.setBook b v }.goto c f (.addLock b))
  | replaceFault (b newB : Addr) (hpc : f.pc = .replace b newB) (hcfg : cfg.poisonFaults = true)
      (hp : s.mem.links.prev (.node b) = .poison) :
      Trans cfg s c f alloc
        ({ s with mem := Sys.replaceFault s.mem b newB }.goto c { f with since := none } .oops)
  | replace (b newB : Addr) (u : Update) (id : Int) (async : Bool) (hpc : f.pc = .replace b newB)
      (hop : f.op = .updateBook u id async)
      (hp : ¬ (cfg.poisonFaults = true ∧ s.mem.links.prev (.node b) = .poison)) :
      Trans cfg s c f alloc
        ({ s with
          mem := s.mem.listReplaceRcu b newB
          entry := Function.update s.entry newB (s.entry b)
          hist := .replaced c u (s.entry b) b :: s.hist }.goto c f (.unlock b))
  | delFault (b : Addr) (hpc : f.pc = .del b) (hcfg : cfg.poisonFaults = true)
      (hp : s.mem.links.prev (.node b) = .poison) :
      Trans cfg s c f alloc ({ s with mem := Sys.delFault s.mem b }.goto c f .oops)
  | del (b : Addr) (hpc : f.pc = .del b)
      (hp : ¬ (cfg.poisonFaults = true ∧ s.mem.links.prev (.node b) = .poison)) :
      Trans cfg s c f alloc
        ({ s with mem := s.mem.listDelRcu b, hist := .deleted c b :: s.hist }.goto c f (.unlock b))
  | add (b : Addr) (hpc : f.pc = .addLink b) :
      Trans cfg s c f alloc ({ s with mem := s.mem.listAddRcu b }.goto c f .addUnlock)
  | callRcu (b : Addr) (hpc : f.pc = .reclaim b) (ha : f.op.async = true) :
      Trans cfg s c f alloc
        ({ s with
          callbacks := s.callbacks ++ [(b, s.clock)]
          hist := .retired c b :: s.hist }.goto c f (.done f.op.success))
  | free (b : Addr) (hpc : f.pc = .free b) :
      Trans cfg s c f alloc
        ({ s with mem := s.mem.kfree b, hist := .retired c b :: s.hist }.goto c f
          (.done f.op.success))

theorem frameStep_trans {cfg : Config} {s s' : Sys} {c : Nat} {f : Frame} {alloc : Bool}
    (h : s.frameStep cfg c f alloc = some s') : Trans cfg s c f alloc s' := by
  obtain ⟨op, pc, since⟩ := f
  cases pc with
  | start =>
      cases op with
      | addBook id name author =>
          cases alloc with
          | true =>
              cases h
              exact .alloc _ rfl (.inl ⟨id, name, author, rfl, rfl, rfl⟩)
          | false =>
              cases h
              exact .quiet _ (.noMemory rfl rfl rfl) (by simp)
      | deleteBook id async =>
          simp only [Sys.frameStep] at h
          split at h
          · rename_i hfree
            cases h
            exact .acquire _ hfree (.inl ⟨rfl, rfl, rfl⟩)
          · cases h
      | updateBook u id async | isBorrowedBook id | printBook id =>
          cases h
          exact .quiet _ (.enter rfl rfl rfl) (by simp)
  | first =>
      cases h
      exact .quiet _ (.first rfl) (by simp)
  | walk p =>
      cases p with
      | head =>
          cases h
          exact .quiet _ (.finish rfl) (by simp)
      | node b =>
          simp only [Sys.frameStep] at h
          split at h
          · rename_i hid
            cases h
            exact .quiet _ (.hit b rfl hid) (by simp)
          · rename_i hid
            cases h
            exact .quiet _ (.miss b rfl hid) (by simp)
      | null | poison =>
          cases h
          exact .quiet _ (.wild _ rfl (by simp)) (by simp)
  | next b =>
      cases h
      exact .quiet _ (.next b rfl) (by simp)
  | test b =>
      cases op with
      | updateBook u id async =>
          simp only [Sys.frameStep] at h
          split at h
          · rename_i hr
            cases h
            exact .quiet _ (.refuse b u id async rfl rfl hr) (by simp)
          · rename_i hr
            cases h
            exact .quiet _ (.accept b u id async rfl rfl (by simpa using hr)) (by simp)
      | _ => cases h
  | alloc b =>
      cases alloc with
      | true =>
          cases h
          exact .alloc _ rfl (.inr ⟨b, rfl, rfl⟩)
      | false =>
          cases h
          exact .quiet _ (.giveUp b rfl) fun _ _ => rfl
  | copy b newB =>
      cases op with
      | updateBook u id async =>
          cases h
          exact .copy b newB u id async rfl rfl
      | _ => cases h
  | lock b newB =>
      simp only [Sys.frameStep] at h
      split at h
      · rename_i hfree
        cases h
        exact .acquire _ hfree (.inr (.inl ⟨b, newB, rfl, rfl⟩))
      · cases h
  | replace b newB =>
      cases op with
      | updateBook u id async =>
          simp only [Sys.frameStep] at h
          split at h
          · rename_i hp
            cases h
            exact .replaceFault b newB rfl hp.1 hp.2
          · rename_i hp
            cases h
            exact .replace b newB u id async rfl rfl hp
      | _ => cases h
  | del b =>
      simp only [Sys.frameStep] at h
      split at h
      · rename_i hp
        cases h
        exact .delFault b rfl hp.1 hp.2
      · rename_i hp
        cases h
        exact .del b rfl hp
  | unlock b =>
      cases h
      exact .release _ (.inl ⟨b, rfl, rfl⟩)
  | leave b =>
      cases h
      exact .quiet _ (.leave b rfl) (by simp)
  | reclaim b =>
      simp only [Sys.frameStep] at h
      split at h
      · rename_i ha
        cases h
        exact .callRcu b rfl ha
      · rename_i ha
        cases h
        exact .quiet _ (.sync b rfl (by simpa using ha)) (by simp)
  | sync b t =>
      simp only [Sys.frameStep] at h
      split at h
      · rename_i hg
        cases h
        exact .quiet _ (.grace b t rfl hg) (by simp)
      · cases h
  | free b =>
      cases h
      exact .free b rfl
  | init b =>
      cases op with
      | addBook id name author =>
          cases h
          exact .init b _ rfl rfl
      | _ => cases h
  | addLock b =>
      simp only [Sys.frameStep] at h
      split at h
      · rename_i hfree
        cases h
        exact .acquire _ hfree (.inr (.inr ⟨b, rfl, rfl⟩))
      · cases h
  | addLink b =>
      cases h
      exact .add b rfl
  | addUnlock =>
      cases h
      exact .release _ (.inr (.inl ⟨rfl, rfl⟩))
  | found b =>
      cases h
      exact .quiet _ (.found b rfl) (by simp)
  | late b =>
      cases h
      exact .quiet _ (.late b rfl) (by simp)
  | print b =>
      cases h
      exact .quiet _ (.print b rfl) (by simp)
  | exit =>
      simp only [Sys.frameStep] at h
      split at h
      · rename_i hdel
        cases h
        exact .release _ (.inr (.inr ⟨rfl, hdel, rfl⟩))
      · rename_i hdel
        cases h
        exact .quiet _ (.exit rfl (by simpa using hdel)) (by simp)
  | done r => cases h
  | oops => cases h

/-- A step of the system: a new call, a step of one call, or one callback. -/
theorem step_cases {cfg : Config} {s s' : Sys} {a : Action} (h : s.step cfg a = some s') :
    (∃ op, a = .call op ∧ s' = { s with frames := s.frames ++ [Frame.new op] }.tick) ∨
    (∃ c alloc f t, a = .run c alloc ∧ s.frames[c]? = some f ∧ Trans cfg s c f alloc t ∧
      s' = t.tick) ∨
    ∃ i b t, a = .callback i ∧ s.callbacks[i]? = some (b, t) ∧ s.graceOver t = true ∧
      s' = { s with mem := s.mem.kfree b, callbacks := s.callbacks.eraseIdx i }.tick := by
  obtain ⟨t, ht, rfl⟩ := Option.map_eq_some_iff.mp h
  cases a with
  | call op =>
      cases ht
      exact .inl ⟨op, rfl, rfl⟩
  | run c alloc =>
      simp only [Sys.act] at ht
      split at ht
      · exact .inr (.inl ⟨c, alloc, _, t, rfl, ‹_›, frameStep_trans ht, rfl⟩)
      · cases ht
  | callback i =>
      simp only [Sys.act, Sys.bookReclaimCallback] at ht
      split at ht
      · split at ht
        · cases ht
          exact .inr (.inr ⟨i, _, _, rfl, ‹_›, ‹_›, rfl⟩)
        · cases ht
      · cases ht

/-! ## Frames after a step -/

theorem eq_of_getElem?_set {α : Type*} {l : List α} {c : Nat} {x y z : α} (hz : l[c]? = some z)
    (h : (l.set c x)[c]? = some y) : y = x := by
  have hlt := (List.getElem?_eq_some_iff.mp hz).1
  rw [List.getElem?_set_self hlt] at h
  exact (Option.some.inj h).symm

theorem getElem?_set_cases {α : Type*} {l : List α} {c c' : Nat} {x y z : α}
    (hz : l[c]? = some z) (h : (l.set c x)[c']? = some y) :
    c' = c ∧ y = x ∨ c' ≠ c ∧ l[c']? = some y := by
  rw [List.getElem?_set] at h
  split at h
  · rename_i heq
    have hlt := (List.getElem?_eq_some_iff.mp hz).1
    rw [if_pos hlt] at h
    exact .inl ⟨heq.symm, (Option.some.inj h).symm⟩
  · rename_i hne
    exact .inr ⟨fun e => hne e.symm, h⟩

theorem sum_map_set {α : Type*} {l : List α} {k : Nat} {x y : α} (g g' : α → Nat)
    (hk : l[k]? = some x) (hother : ∀ j z, j ≠ k → l[j]? = some z → g' z = g z) :
    ((l.set k y).map g').sum + g x = (l.map g).sum + g' y := by
  induction l generalizing k with
  | nil => cases hk
  | cons z l ih =>
      cases k with
      | zero =>
          cases hk
          have hrest : l.map g' = l.map g := by
            apply List.map_congr_left
            intro w hw
            obtain ⟨j, hj⟩ := List.getElem?_of_mem hw
            exact hother (j + 1) w (by omega) hj
          simp only [List.set_cons_zero, List.map_cons, List.sum_cons, hrest]
          omega
      | succ k =>
          have hz : g' z = g z := hother 0 z (by omega) rfl
          have hrec := ih (k := k) hk fun j w hj hw => hother (j + 1) w (by omega) hw
          simp only [List.set_cons_succ, List.map_cons, List.sum_cons, hz]
          omega

theorem getElem?_snoc_cases {α : Type*} {l : List α} {c : Nat} {x y : α}
    (h : (l ++ [x])[c]? = some y) : l[c]? = some y ∨ y = x := by
  rw [List.getElem?_append] at h
  split at h
  · exact .inl h
  · exact .inr (List.mem_singleton.mp (List.mem_of_getElem? h))

/-! ## Which steps a call can be at -/

def Pc.suits (op : Op) : Pc → Bool
  | .start | .done _ | .oops => true
  | .first | .walk _ | .next _ | .exit => !op.adds
  | .test _ | .alloc _ | .copy .. | .lock .. | .replace .. | .leave _ => op.updates
  | .del _ => op.deletes
  | .unlock _ | .reclaim _ | .sync .. | .free _ => op.updates || op.deletes
  | .init _ | .addLock _ | .addLink _ | .addUnlock => op.adds
  | .found _ | .late _ => op = .isBorrowedBook op.id
  | .print _ => op = .printBook op.id

/-- The steps a call other than `delete_book` takes inside its critical section. -/
def Pc.inside : Pc → Bool
  | .first | .walk _ | .next _ | .test _ | .alloc _ | .copy .. | .lock .. | .replace .. | .del _
  | .unlock _ | .leave _ | .found _ | .print _ | .exit => true
  | _ => false

/-- The call is at a step of its function, and its critical section is open only where
the function has one. -/
structure Frame.Fits (f : Frame) : Prop where
  suits : f.pc.suits f.op = true
  bare : f.op.deletes = true → f.since = none
  outside : f.pc.inside = false → f.since = none
  entered : f.pc.inside = true → f.since = none → f.op.deletes = true

theorem Frame.Fits.new (op : Op) : (Frame.new op).Fits :=
  ⟨rfl, fun _ => rfl, fun _ => rfl, fun h => by cases h⟩

theorem Frame.Fits.op_update {f : Frame} (h : f.Fits) (hpc : ∀ op, f.pc.suits op = op.updates) :
    ∃ u id async, f.op = .updateBook u id async := by
  have hs := h.suits
  rw [hpc] at hs
  cases hop : f.op with
  | updateBook u id async => exact ⟨u, id, async, rfl⟩
  | _ =>
      rw [hop] at hs
      cases hs

theorem Sys.hit_suits (op : Op) (b : Addr) :
    (Sys.hit op b).suits op = true ∧ (op.adds = false → (Sys.hit op b).inside = true) := by
  cases op <;> simp [Sys.hit, Pc.suits, Op.adds, Op.updates, Op.deletes, Op.id, Pc.inside]

theorem Op.adds_eq_false {op : Op} (h : op.updates = true ∨ op.deletes = true ∨
    op = .isBorrowedBook op.id ∨ op = .printBook op.id) : op.adds = false := by
  cases op <;> simp_all [Op.adds, Op.updates, Op.deletes]

theorem Local.fits {s : Sys} {f f' : Frame} (h : Local s f f') (hf : f.Fits) :
    f'.op = f.op ∧ f'.Fits := by
  have hs := hf.suits
  have ho := hf.outside
  have he := hf.entered
  cases h with
  | hit b hpc hid =>
      rw [hpc] at hs
      have hadd : f.op.adds = false := by simpa [Pc.suits] using hs
      obtain ⟨hsuits, hinside⟩ := Sys.hit_suits f.op b
      exact ⟨rfl, hsuits, hf.bare, by simp [hinside hadd], fun _ => he (by simp [hpc, Pc.inside])⟩
  | enter hpc hdel hadd =>
      exact ⟨rfl, by simp [Pc.suits, hadd], by simp [hdel], by simp [Pc.inside], by simp⟩
  | refuse b u id async hpc hop hr =>
      exact ⟨rfl, by simp [Pc.suits, hop, Op.adds], hf.bare, by simp [Pc.inside],
        fun _ => he (by simp [hpc, Pc.inside])⟩
  | giveUp b hpc =>
      have hadd := Op.adds_eq_false (.inl (by simpa [hpc, Pc.suits] using hs))
      exact ⟨rfl, by simp [Pc.suits, hadd], hf.bare, by simp [Pc.inside],
        fun _ => he (by simp [hpc, Pc.inside])⟩
  | print b hpc =>
      have hadd := Op.adds_eq_false (.inr (.inr (.inr (by simpa [hpc, Pc.suits] using hs))))
      exact ⟨rfl, by simp [Pc.suits, hadd], hf.bare, by simp [Pc.inside],
        fun _ => he (by simp [hpc, Pc.inside])⟩
  | leave b hpc =>
      exact ⟨rfl, by simp_all [Pc.suits], fun _ => rfl, fun _ => rfl, by simp [Pc.inside]⟩
  | found b hpc =>
      exact ⟨rfl, by simpa [hpc, Pc.suits] using hs, fun _ => rfl, fun _ => rfl, by simp [Pc.inside]⟩
  | noMemory hpc | late b hpc =>
      exact ⟨rfl, rfl, hf.bare, fun _ => ho (by simp [hpc, Pc.inside]), by simp [Pc.inside]⟩
  | sync b hpc | grace b t hpc =>
      exact ⟨rfl, by simpa [hpc, Pc.suits] using hs, hf.bare, fun _ => ho (by simp [hpc, Pc.inside]),
        by simp [Pc.inside]⟩
  | wild p hpc | exit hpc => exact ⟨rfl, rfl, fun _ => rfl, fun _ => rfl, by simp [Pc.inside]⟩
  | first hpc | finish hpc | miss b hpc | next b hpc | accept b u id async hpc =>
      exact ⟨rfl, by simpa [hpc, Pc.suits] using hs, hf.bare, by simp [Pc.inside],
        fun _ => he (by simp [hpc, Pc.inside])⟩

theorem Trans.fits {cfg : Config} {s t : Sys} {c : Nat} {f : Frame} {alloc : Bool}
    (h : Trans cfg s c f alloc t) (hf : f.Fits) :
    ∃ f', t.frames = s.frames.set c f' ∧ f'.op = f.op ∧ f'.Fits := by
  have hs := hf.suits
  have ho := hf.outside
  have he := hf.entered
  cases h with
  | quiet f' h ha => exact ⟨f', rfl, h.fits hf⟩
  | acquire pc hfree hpc =>
      refine ⟨_, rfl, rfl, ?_⟩
      rcases hpc with ⟨hpc, hdel, rfl⟩ | ⟨b, n, hpc, rfl⟩ | ⟨b, hpc, rfl⟩
      · have hadd := Op.adds_eq_false (.inr (.inl hdel))
        exact ⟨by simp [Pc.suits, hadd], hf.bare, fun _ => ho (by simp [hpc, Pc.inside]),
          fun _ _ => hdel⟩
      · exact ⟨by simpa [hpc, Pc.suits] using hs, hf.bare, by simp [Pc.inside],
          fun _ => he (by simp [hpc, Pc.inside])⟩
      · exact ⟨by simpa [hpc, Pc.suits] using hs, hf.bare, fun _ => ho (by simp [hpc, Pc.inside]),
          by simp [Pc.inside]⟩
  | release pc hpc =>
      refine ⟨_, rfl, rfl, ?_⟩
      rcases hpc with ⟨b, hpc, rfl⟩ | ⟨hpc, rfl⟩ | ⟨hpc, hdel, rfl⟩
      · cases hdel : f.op.deletes with
        | true =>
            have hbare := hf.bare hdel
            exact ⟨by simp [Pc.suits, hdel], fun _ => hbare, fun _ => hbare, by simp [Pc.inside]⟩
        | false =>
            exact ⟨by simpa [hpc, Pc.suits, hdel] using hs, by simp [hdel], by simp [Pc.inside],
              fun _ => he (by simp [hpc, Pc.inside])⟩
      · exact ⟨rfl, hf.bare, fun _ => ho (by simp [hpc, Pc.inside]), by simp [Pc.inside]⟩
      · exact ⟨rfl, hf.bare, fun _ => hf.bare hdel, by simp [Pc.inside]⟩
  | alloc pc ha hpc =>
      refine ⟨_, rfl, rfl, ?_⟩
      rcases hpc with ⟨id, name, author, hop, hpc, rfl⟩ | ⟨b, hpc, rfl⟩
      · exact ⟨by simp [Pc.suits, hop, Op.adds], hf.bare, fun _ => ho (by simp [hpc, Pc.inside]),
          by simp [Pc.inside]⟩
      · exact ⟨by simpa [hpc, Pc.suits] using hs, hf.bare, by simp [Pc.inside],
          fun _ => he (by simp [hpc, Pc.inside])⟩
  | copy b n u id async hpc hop | replace b n u id async hpc hop hp | del b hpc hp =>
      exact ⟨_, rfl, rfl, by simp_all [Pc.suits], hf.bare, by simp [Pc.inside],
        fun _ => he (by simp [hpc, Pc.inside])⟩
  | replaceFault b n hpc hcfg hp =>
      exact ⟨_, rfl, rfl, rfl, fun _ => rfl, fun _ => rfl, by simp [Pc.inside]⟩
  | delFault b hpc hcfg hp =>
      have hdel : f.op.deletes = true := by simpa [hpc, Pc.suits] using hs
      exact ⟨_, rfl, rfl, rfl, hf.bare, fun _ => hf.bare hdel, by simp [Pc.inside]⟩
  | callRcu b hpc ha | free b hpc =>
      exact ⟨_, rfl, rfl, rfl, hf.bare, fun _ => ho (by simp [hpc, Pc.inside]), by simp [Pc.inside]⟩
  | init b v hpc hv | add b hpc =>
      exact ⟨_, rfl, rfl, by simpa [hpc, Pc.suits] using hs, hf.bare,
        fun _ => ho (by simp [hpc, Pc.inside]), by simp [Pc.inside]⟩

def Typed (s : Sys) : Prop := ∀ f ∈ s.frames, f.Fits

theorem Typed.boot (m : Mem) (ops : List Op) : Typed (Sys.boot m ops) := by
  intro f hf
  obtain ⟨op, -, rfl⟩ := List.mem_map.mp hf
  exact .new op

theorem Typed.step {cfg : Config} {s s' : Sys} {a : Action} (h : Typed s)
    (hs : s.step cfg a = some s') : Typed s' := by
  intro g hg
  rcases step_cases hs with ⟨op, -, rfl⟩ | ⟨c, alloc, f, t, -, hf, ht, rfl⟩ | ⟨i, b, t, -, -, -, rfl⟩
  · rcases List.mem_append.mp hg with hg | hg
    · exact h g hg
    · rw [List.mem_singleton.mp hg]
      exact .new op
  · obtain ⟨f', hframes, -, hf'⟩ := ht.fits (h f (List.mem_of_getElem? hf))
    rw [Sys.tick, hframes] at hg
    rcases List.mem_or_eq_of_mem_set hg with hg | rfl
    · exact h g hg
    · exact hf'
  · exact h g hg

end KernelTrg.Books
