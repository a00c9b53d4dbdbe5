import KernelTrg.Books.Steps
import KernelTrg.Lib.Runs

/-!
# Which call unlinked and retired what

The event list says which call took which object off the list and which call handed
it to reclamation. A call does each at most once, in this order, and returns its
success value right after the second. None of this depends on the links.
-/

namespace KernelTrg.Books

open LinkRing

def Event.unlinks : Event → Option (Nat × Addr)
  | .replaced c _ _ old => some (c, old)
  | .deleted c b => some (c, b)
  | .retired .. => none

def Event.retires : Event → Option (Nat × Addr)
  | .retired c b => some (c, b)
  | _ => none

def unlinked (hist : List Event) : List (Nat × Addr) := hist.filterMap Event.unlinks

def retired (hist : List Event) : List (Nat × Addr) := hist.filterMap Event.retires

/-- The object the call took off the list and has yet to hand to reclamation. -/
def Pc.doomed : Pc → Option Addr
  | .unlock b | .leave b | .reclaim b | .sync b _ | .free b => some b
  | _ => none

section Events

variable {e : Event} {hist : List Event} {c : Nat} {b old entry : Addr} {u : Update}

theorem unlinked_cons_some {p : Nat × Addr} (h : e.unlinks = some p) :
    unlinked (e :: hist) = p :: unlinked hist := List.filterMap_cons_some h

theorem retired_cons_none (h : e.retires = none) : retired (e :: hist) = retired hist :=
  List.filterMap_cons_none h

@[simp] theorem unlinked_retired : unlinked (.retired c b :: hist) = unlinked hist := rfl

@[simp] theorem retired_retired : retired (.retired c b :: hist) = (c, b) :: retired hist := rfl

theorem mem_unlinked_of_replaced (h : Event.replaced c u entry old ∈ hist) :
    (c, old) ∈ unlinked hist := List.mem_filterMap.mpr ⟨_, h, rfl⟩

theorem Event.retires_of_unlinks {p : Nat × Addr} (h : e.unlinks = some p) : e.retires = none := by
  cases e <;> simp_all [Event.unlinks, Event.retires]

end Events

/-! ## One step -/

variable {cfg : Config} {s s' t : Sys} {a : Action} {c : Nat} {f f' : Frame} {alloc : Bool}

/-- The three kinds of steps, for the record of unlinked and retired objects. -/
inductive Accounts (s t : Sys) (c : Nat) (f f' : Frame) : Prop where
  | other (hhist : t.hist = s.hist) (hd : f'.pc.doomed = f.pc.doomed)
      (hr : f'.pc = .done (some 0) → f.op.updates = false)
  | unlink (e : Event) (b : Addr) (hhist : t.hist = e :: s.hist) (he : e.unlinks = some (c, b))
      (hu : ∀ c' u x y, e = .replaced c' u x y → ∃ id async, f.op = .updateBook u id async)
      (hc : ∀ u id async, f.op = .updateBook u id async → ∃ x, e = .replaced c u x b)
      (hd : f.pc.doomed = none) (hpc : f'.pc = .unlock b)
  | retire (b : Addr) (hhist : t.hist = .retired c b :: s.hist) (hd : f.pc.doomed = some b)
      (hpc : f'.pc = .done f.op.success)

theorem Local.other (h : Local s f f') (hf : f.Fits) :
    f'.pc.doomed = f.pc.doomed ∧ (f'.pc = .done (some 0) → f.op.updates = false) ∧
      ∀ r, f.pc ≠ .done r := by
  have hs := hf.suits
  cases h with
  | hit b hpc hid =>
      rw [hpc]
      cases hop : f.op <;> simp [Sys.hit, Pc.doomed]
  | late b hpc =>
      have hop : f.op = .isBorrowedBook f.op.id := by simpa [hpc, Pc.suits] using hs
      rw [hpc]
      exact ⟨rfl, fun _ => by rw [hop]; rfl, by simp⟩
  | exit hpc hdel =>
      rw [hpc]
      refine ⟨rfl, ?_, by simp⟩
      cases hop : f.op <;> simp [Op.failure, Op.updates]
  | noMemory hpc | enter hpc | first hpc | finish hpc | miss b hpc | wild p hpc | next b hpc
  | refuse b u id async hpc | accept b u id async hpc | giveUp b hpc | leave b hpc | sync b hpc
  | grace b t hpc | found b hpc | print b hpc =>
      rw [hpc]
      exact ⟨rfl, by simp, by simp⟩

theorem Trans.accounts (h : Trans cfg s c f alloc t) (hf : f.Fits) :
    (∃ f', t.frames = s.frames.set c f' ∧ f'.op = f.op ∧ Accounts s t c f f') ∧
      ∀ r, f.pc ≠ .done r := by
  cases h with
  | quiet f' hl ha =>
      obtain ⟨hd, hr, hdone⟩ := hl.other hf
      exact ⟨⟨f', rfl, (hl.fits hf).1, .other rfl hd hr⟩, hdone⟩
  | acquire pc hfree hpc =>
      rcases hpc with ⟨hpc, -, rfl⟩ | ⟨b, newB, hpc, rfl⟩ | ⟨b, hpc, rfl⟩ <;>
        exact ⟨⟨_, rfl, rfl, .other rfl (by rw [hpc]; rfl) (by simp)⟩, by simp [hpc]⟩
  | release pc hpc =>
      rcases hpc with ⟨b, hpc, rfl⟩ | ⟨hpc, rfl⟩ | ⟨hpc, hdel, rfl⟩
      · refine ⟨⟨_, rfl, rfl, .other rfl ?_ ?_⟩, by simp [hpc]⟩
        · rw [hpc]
          cases f.op.deletes <;> rfl
        · cases f.op.deletes <;> simp
      · exact ⟨⟨_, rfl, rfl, .other rfl (by rw [hpc]; rfl) (by simp)⟩, by simp [hpc]⟩
      · refine ⟨⟨_, rfl, rfl, .other rfl (by rw [hpc]; rfl) ?_⟩, by simp [hpc]⟩
        cases hop : f.op <;> simp_all [Op.failure, Op.deletes, Op.updates]
  | alloc pc ha hpc =>
      rcases hpc with ⟨id, name, author, hop, hpc, rfl⟩ | ⟨b, hpc, rfl⟩ <;>
        exact ⟨⟨_, rfl, rfl, .other rfl (by rw [hpc]; rfl) (by simp)⟩, by simp [hpc]⟩
  | copy b newB u id async hpc hop | init b v hpc hv | add b hpc | replaceFault b newB hpc hcfg hp
  | delFault b hpc hcfg hp =>
      exact ⟨⟨_, rfl, rfl, .other rfl (by rw [hpc]; rfl) (by simp)⟩, by simp [hpc]⟩
  | replace b newB u id async hpc hop hp =>
      refine ⟨⟨_, rfl, rfl, .unlink _ b rfl rfl ?_ ?_ (by rw [hpc]; rfl) rfl⟩, by simp [hpc]⟩
      · intro c' u' x y he
        cases he
        exact ⟨id, async, hop⟩
      · intro u' id' async' hop'
        cases hop.symm.trans hop'
        exact ⟨_, rfl⟩
  | del b hpc hp =>
      have hdel : f.op.deletes = true := by simpa [hpc, Pc.suits] using hf.suits
      refine ⟨⟨_, rfl, rfl, .unlink _ b rfl rfl (by simp) ?_ (by rw [hpc]; rfl) rfl⟩, by simp [hpc]⟩
      intro u id async hop
      rw [hop] at hdel
      cases hdel
  | callRcu b hpc ha | free b hpc =>
      exact ⟨⟨_, rfl, rfl, .retire b rfl (by rw [hpc]; rfl) rfl⟩, by simp [hpc]⟩

/-! ## Every run -/

structure Recorded (s : Sys) : Prop where
  unlinkedBy : ∀ c b, (c, b) ∈ unlinked s.hist → ∃ f, s.frames[c]? = some f ∧
    (f.pc.doomed = some b ∨ f.pc = .done f.op.success ∧ (c, b) ∈ retired s.hist)
  doomed : ∀ (c : Nat) (f : Frame) b, s.frames[c]? = some f → f.pc.doomed = some b →
    (c, b) ∈ unlinked s.hist ∧ (c, b) ∉ retired s.hist
  retiredOnly : ∀ p ∈ retired s.hist, p ∈ unlinked s.hist
  unlinksOnce : ((unlinked s.hist).map Prod.fst).Nodup
  retiresOnce : (retired s.hist).Nodup
  committed : ∀ (c : Nat) (f : Frame) u id async, s.frames[c]? = some f →
    f.op = .updateBook u id async → f.pc.doomed ≠ none ∨ f.pc = .done (some 0) →
    ∃ e b, .replaced c u e b ∈ s.hist
  updater : ∀ c u e b, .replaced c u e b ∈ s.hist → ∃ (f : Frame) (id : Int) (async : Bool),
    s.frames[c]? = some f ∧ f.op = .updateBook u id async

theorem Recorded.boot (m : Mem) (ops : List Op) : Recorded (Sys.boot m ops) := by
  have hnew : ∀ (c : Nat) (f : Frame), (Sys.boot m ops).frames[c]? = some f → f.pc = .start := by
    intro c f hf
    obtain ⟨op, -, rfl⟩ := List.mem_map.mp (List.mem_of_getElem? hf)
    rfl
  constructor
  case unlinkedBy => exact fun _ _ h => (by cases h)
  case doomed =>
    intro c f b hf hd
    rw [hnew c f hf] at hd
    cases hd
  case retiredOnly => exact fun _ h => (by cases h)
  case unlinksOnce => exact List.nodup_nil
  case retiresOnce => exact List.nodup_nil
  case committed =>
    intro c f u id async hf _ hd
    rw [hnew c f hf] at hd
    simp [Pc.doomed] at hd
  case updater => exact fun _ _ _ _ h => (by cases h)

namespace Recorded

/-- A call that has not got to it has no unlinked object on record. -/
theorem not_unlinked (h : Recorded s) (hf : s.frames[c]? = some f) (hd : f.pc.doomed = none)
    (hdone : ∀ r, f.pc ≠ .done r) (b : Addr) : (c, b) ∉ unlinked s.hist := by
  intro hm
  obtain ⟨g, hg, hcase⟩ := h.unlinkedBy c b hm
  cases hf.symm.trans hg
  rcases hcase with hb | ⟨hb, -⟩
  · rw [hd] at hb
    cases hb
  · exact hdone _ hb

theorem updater_set (h : Recorded s) (hf : s.frames[c]? = some f)
    (hframes : t.frames = s.frames.set c f') (hop : f'.op = f.op) :
    ∀ c' u e b, .replaced c' u e b ∈ s.hist → ∃ (g : Frame) (id : Int) (async : Bool),
      t.frames[c']? = some g ∧ g.op = .updateBook u id async := by
  intro c' u e b hm
  obtain ⟨g, id, async, hg, ho⟩ := h.updater c' u e b hm
  rw [hframes]
  by_cases hc : c' = c
  · subst hc
    cases hf.symm.trans hg
    exact ⟨f', id, async, List.getElem?_set_self (List.getElem?_eq_some_iff.mp hf).1, hop.trans ho⟩
  · exact ⟨g, id, async, (List.getElem?_set_ne (Ne.symm hc)).trans hg, ho⟩

theorem trans (h : Recorded s) (htyped : Typed s) (hf : s.frames[c]? = some f)
    (ht : Trans cfg s c f alloc t) : Recorded t := by
  obtain ⟨⟨f', hframes, hop, hacc⟩, hdone⟩ := ht.accounts (htyped f (List.mem_of_getElem? hf))
  have hlt := (List.getElem?_eq_some_iff.mp hf).1
  have hown : t.frames[c]? = some f' := by rw [hframes, List.getElem?_set_self hlt]
  have hother : ∀ c', c' ≠ c → t.frames[c']? = s.frames[c']? := by
    intro c' hne
    rw [hframes, List.getElem?_set_ne (Ne.symm hne)]
  have hupdater := h.updater_set hf hframes hop
  cases hacc with
  | other hhist hd hr =>
      have hun : unlinked t.hist = unlinked s.hist := by rw [hhist]
      have hre : retired t.hist = retired s.hist := by rw [hhist]
      constructor
      case unlinkedBy =>
        intro c' b hm
        rw [hun] at hm
        rw [hre]
        by_cases hc : c' = c
        · subst hc
          obtain ⟨g, hg, hcase⟩ := h.unlinkedBy c' b hm
          cases hf.symm.trans hg
          rcases hcase with hb | ⟨hb, -⟩
          · exact ⟨f', hown, .inl (hd.trans hb)⟩
          · exact absurd hb (hdone _)
        · rw [hother c' hc]
          exact h.unlinkedBy c' b hm
      case doomed =>
        intro c' g b hg hb
        rw [hun, hre]
        rw [hframes] at hg
        rcases getElem?_set_cases hf hg with ⟨rfl, rfl⟩ | ⟨hne, hg⟩
        · exact h.doomed c' f b hf (hd.symm.trans hb)
        · exact h.doomed c' g b hg hb
      case retiredOnly =>
        rw [hun, hre]
        exact h.retiredOnly
      case unlinksOnce =>
        rw [hun]
        exact h.unlinksOnce
      case retiresOnce =>
        rw [hre]
        exact h.retiresOnce
      case committed =>
        intro c' g u id async hg ho hcase
        rw [hhist]
        rw [hframes] at hg
        rcases getElem?_set_cases hf hg with ⟨rfl, rfl⟩ | ⟨hne, hg⟩
        · rcases hcase with hb | hb
          · exact h.committed c' f u id async hf (hop.symm.trans ho) (.inl (hd ▸ hb))
          · have hup := hr hb
            rw [← hop, ho] at hup
            cases hup
        · exact h.committed c' g u id async hg ho hcase
      case updater =>
        rw [hhist]
        exact hupdater
  | unlink e b hhist he hu hc hd hpc =>
      have hun : unlinked t.hist = (c, b) :: unlinked s.hist := by
        rw [hhist, unlinked_cons_some he]
      have hre : retired t.hist = retired s.hist := by
        rw [hhist, retired_cons_none (Event.retires_of_unlinks he)]
      have hnew := h.not_unlinked hf hd hdone
      constructor
      case unlinkedBy =>
        intro c' x hm
        rw [hun] at hm
        rw [hre]
        rcases List.mem_cons.mp hm with heq | hold
        · cases heq
          exact ⟨f', hown, .inl (by rw [hpc]; rfl)⟩
        · have hne : c' ≠ c := fun e => hnew x (e ▸ hold)
          rw [hother c' hne]
          exact h.unlinkedBy c' x hold
      case doomed =>
        intro c' g x hg hx
        rw [hun, hre]
        rw [hframes] at hg
        rcases getElem?_set_cases hf hg with ⟨rfl, rfl⟩ | ⟨hne, hg⟩
        · rw [hpc] at hx
          cases hx
          exact ⟨List.mem_cons_self .., fun hm => hnew b (h.retiredOnly _ hm)⟩
        · obtain ⟨hx₁, hx₂⟩ := h.doomed c' g x hg hx
          exact ⟨List.mem_cons_of_mem _ hx₁, hx₂⟩
      case retiredOnly =>
        intro p hp
        rw [hun]
        exact List.mem_cons_of_mem _ (h.retiredOnly p (hre ▸ hp))
      case unlinksOnce =>
        rw [hun, List.map_cons, List.nodup_cons]
        refine ⟨?_, h.unlinksOnce⟩
        intro hm
        obtain ⟨⟨c', x⟩, hx, heq⟩ := List.mem_map.mp hm
        cases heq
        exact hnew x hx
      case retiresOnce =>
        rw [hre]
        exact h.retiresOnce
      case committed =>
        intro c' g u id async hg ho hcase
        rw [hhist]
        rw [hframes] at hg
        rcases getElem?_set_cases hf hg with ⟨rfl, rfl⟩ | ⟨hne, hg⟩
        · obtain ⟨x, rfl⟩ := hc u id async (hop.symm.trans ho)
          exact ⟨x, b, List.mem_cons_self ..⟩
        · obtain ⟨x, y, hm⟩ := h.committed c' g u id async hg ho hcase
          exact ⟨x, y, List.mem_cons_of_mem _ hm⟩
      case updater =>
        intro c' u x y hm
        rw [hhist] at hm
        rcases List.mem_cons.mp hm with heq | hm
        · obtain ⟨id, async, ho⟩ := hu c' u x y heq.symm
          rw [← heq] at he
          cases he
          exact ⟨f', id, async, hown, hop.trans ho⟩
        · exact hupdater c' u x y hm
  | retire b hhist hd hpc =>
      have hun : unlinked t.hist = unlinked s.hist := by rw [hhist]; rfl
      have hre : retired t.hist = (c, b) :: retired s.hist := by rw [hhist]; rfl
      obtain ⟨hin, hnot⟩ := h.doomed c f b hf hd
      constructor
      case unlinkedBy =>
        intro c' x hm
        rw [hun] at hm
        rw [hre]
        by_cases hne : c' = c
        · subst hne
          obtain ⟨g, hg, hcase⟩ := h.unlinkedBy c' x hm
          cases hf.symm.trans hg
          rcases hcase with hx | ⟨hx, -⟩
          · rw [hd] at hx
            cases hx
            exact ⟨f', hown, .inr ⟨by rw [hpc, hop], List.mem_cons_self ..⟩⟩
          · exact absurd hx (hdone _)
        · rw [hother c' hne]
          obtain ⟨g, hg, hcase⟩ := h.unlinkedBy c' x hm
          exact ⟨g, hg, hcase.imp id fun hx => ⟨hx.1, List.mem_cons_of_mem _ hx.2⟩⟩
      case doomed =>
        intro c' g x hg hx
        rw [hun, hre]
        rw [hframes] at hg
        rcases getElem?_set_cases hf hg with ⟨rfl, rfl⟩ | ⟨hne, hg⟩
        · rw [hpc] at hx
          cases hx
        · obtain ⟨hx₁, hx₂⟩ := h.doomed c' g x hg hx
          refine ⟨hx₁, ?_⟩
          intro hm
          rcases List.mem_cons.mp hm with heq | hm
          · cases heq
            exact hne rfl
          · exact hx₂ hm
      case retiredOnly =>
        intro p hp
        rw [hun]
        rcases List.mem_cons.mp (hre ▸ hp) with rfl | hp
        · exact hin
        · exact h.retiredOnly p hp
      case unlinksOnce =>
        rw [hun]
        exact h.unlinksOnce
      case retiresOnce =>
        rw [hre]
        exact List.nodup_cons.mpr ⟨hnot, h.retiresOnce⟩
      case committed =>
        intro c' g u id async hg ho hcase
        rw [hhist]
        have hold : ∃ x y, .replaced c' u x y ∈ s.hist := by
          rw [hframes] at hg
          rcases getElem?_set_cases hf hg with ⟨rfl, rfl⟩ | ⟨hne, hg⟩
          · exact h.committed c' f u id async hf (hop.symm.trans ho) (.inl (by simp [hd]))
          · exact h.committed c' g u id async hg ho hcase
        obtain ⟨x, y, hm⟩ := hold
        exact ⟨x, y, List.mem_cons_of_mem _ hm⟩
      case updater =>
        intro c' u x y hm
        rw [hhist] at hm
        rcases List.mem_cons.mp hm with heq | hm
        · cases heq
        · exact hupdater c' u x y hm

theorem step (h : Recorded s) (htyped : Typed s) (hs : s.step cfg a = some s') : Recorded s' := by
  rcases step_cases hs with ⟨op, -, rfl⟩ | ⟨c, alloc, f, t, -, hf, ht, rfl⟩ | ⟨i, b, t, -, -, -, rfl⟩
  · have hold : ∀ (c : Nat) (f : Frame), s.frames[c]? = some f →
        (s.frames ++ [Frame.new op])[c]? = some f := by
      intro c f hf
      rw [List.getElem?_append_left (List.getElem?_eq_some_iff.mp hf).1, hf]
    constructor
    case unlinkedBy =>
      intro c b hm
      obtain ⟨f, hf, hcase⟩ := h.unlinkedBy c b hm
      exact ⟨f, hold c f hf, hcase⟩
    case doomed =>
      intro c f b hf hb
      rcases getElem?_snoc_cases hf with hf | rfl
      · exact h.doomed c f b hf hb
      · cases hb
    case retiredOnly => exact h.retiredOnly
    case unlinksOnce => exact h.unlinksOnce
    case retiresOnce => exact h.retiresOnce
    case committed =>
      intro c f u id async hf ho hcase
      rcases getElem?_snoc_cases hf with hf | rfl
      · exact h.committed c f u id async hf ho hcase
      · simp [Frame.new, Pc.doomed] at hcase
    case updater =>
      intro c u e b hm
      obtain ⟨f, id, async, hf, ho⟩ := h.updater c u e b hm
      exact ⟨f, id, async, hold c f hf, ho⟩
  · have h' := h.trans htyped hf ht
    exact ⟨h'.unlinkedBy, h'.doomed, h'.retiredOnly, h'.unlinksOnce, h'.retiresOnce, h'.committed,
      h'.updater⟩
  · exact ⟨h.unlinkedBy, h.doomed, h.retiredOnly, h.unlinksOnce, h.retiresOnce, h.committed,
      h.updater⟩

end Recorded

end KernelTrg.Books
