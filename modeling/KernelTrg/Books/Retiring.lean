import KernelTrg.Books.Lending

/-!
# Retiring every object once

Every object that leaves the list is on record with the call that unlinked it, and
the objects freed so far together with those waiting for their callback are, as a
permutation, the objects on record as retired. An updater decides which object it
will retire before it takes the lock; `Undisturbed` says that nobody unlinks that
object from under it.
-/

namespace KernelTrg.Books

open LinkRing Runs

variable {cfg : Config} {s s' t : Sys} {a : Action} {xs xs' : List Addr}
  {ut ut' : Addr → Option Nat} {c : Nat} {f f' : Frame} {alloc : Bool}

/-! ## The ledger -/

/-- What was handed to reclamation is freed or waits for its callback. -/
def Ledger (s : Sys) : Prop :=
  (s.callbacks.map Prod.fst ++ s.mem.freed).Perm ((retired s.hist).map Prod.snd)

theorem Ledger.boot {m : Mem} (h : m.freed = []) (ops : List Op) : Ledger (Sys.boot m ops) := by
  simp [Ledger, Sys.boot, h, retired]

/-- Steps other than the two that retire touch neither side of the ledger. -/
theorem Trans.ledger (ht : Trans cfg s c f alloc t) :
    (t.callbacks = s.callbacks ∧ t.mem.freed = s.mem.freed ∧ retired t.hist = retired s.hist) ∨
    (∃ b, t.callbacks = s.callbacks ++ [(b, s.clock)] ∧ t.mem.freed = s.mem.freed ∧
      t.hist = .retired c b :: s.hist) ∨
    ∃ b, t.callbacks = s.callbacks ∧ t.mem.freed = b :: s.mem.freed ∧
      t.hist = .retired c b :: s.hist := by
  cases ht with
  | callRcu b hpc ha => exact .inr (.inl ⟨b, rfl, rfl, rfl⟩)
  | free b hpc => exact .inr (.inr ⟨b, rfl, rfl, rfl⟩)
  | _ => exact .inl ⟨rfl, rfl, rfl⟩

theorem Ledger.step (h : Ledger s) (hs : s.step cfg a = some s') : Ledger s' := by
  rcases step_cases hs with ⟨op, -, rfl⟩ | ⟨c, al, f, t, -, hf, ht, rfl⟩ | ⟨i, b, r, -, hi, -, rfl⟩
  · exact h
  · change (t.callbacks.map Prod.fst ++ t.mem.freed).Perm ((retired t.hist).map Prod.snd)
    rcases ht.ledger with ⟨hcb, hfr, hre⟩ | ⟨b, hcb, hfr, hhist⟩ | ⟨b, hcb, hfr, hhist⟩
    · rw [hcb, hfr, hre]
      exact h
    · rw [hcb, hfr, hhist, retired_retired, List.map_append, List.append_assoc]
      exact List.perm_middle.trans (h.cons b)
    · rw [hcb, hfr, hhist, retired_retired]
      exact List.perm_middle.trans (h.cons b)
  · -- the freed object moves from one part of the left side to the other
    obtain ⟨hlt, hget⟩ := List.getElem?_eq_some_iff.mp hi
    have hmove : (b :: (s.callbacks.eraseIdx i).map Prod.fst).Perm (s.callbacks.map Prod.fst) := by
      have hperm := (List.getElem_cons_eraseIdx_perm hlt).map Prod.fst
      rwa [hget] at hperm
    exact List.perm_middle.trans ((hmove.append_right _).trans h)

structure UnlinkedOnce (s : Sys) (ut : Addr → Option Nat) : Prop where
  nodup : ((unlinked s.hist).map Prod.snd).Nodup
  gone : ∀ p ∈ unlinked s.hist, ∃ t, ut p.2 = some t

theorem UnlinkedOnce.cons (h : UnlinkedOnce s ut) (hcore : Core s xs ut) {b : Addr} (hb : b ∈ xs)
    {e : Event} (he : e.unlinks = some (c, b)) (hhist : s'.hist = e :: s.hist) :
    UnlinkedOnce s' (Function.update ut b (some s.clock)) := by
  have hfresh : ∀ p ∈ unlinked s.hist, p.2 ≠ b := by
    intro p hp heq
    obtain ⟨t, ht⟩ := h.gone p hp
    rw [heq, (hcore.linked b hb).2] at ht
    cases ht
  have hun : unlinked s'.hist = (c, b) :: unlinked s.hist := by rw [hhist, unlinked_cons_some he]
  refine ⟨?_, ?_⟩
  · rw [hun, List.map_cons, List.nodup_cons]
    refine ⟨?_, h.nodup⟩
    intro hm
    obtain ⟨p, hp, heq⟩ := List.mem_map.mp hm
    exact hfresh p hp heq
  · intro p hp
    rw [hun] at hp
    rcases List.mem_cons.mp hp with rfl | hp
    · exact ⟨s.clock, Function.update_self ..⟩
    · rw [Function.update_of_ne (hfresh p hp)]
      exact h.gone p hp

theorem UnlinkedOnce.step (h : UnlinkedOnce s ut) (hcore : Core s xs ut)
    (hr : Relists s a s' xs ut xs' ut') : UnlinkedOnce s' ut' := by
  cases hr with
  | same hnext hentry hhist =>
      have hun : unlinked s'.hist = unlinked s.hist := by
        rcases hhist with hh | ⟨c, b, hh⟩ <;> simp [hh]
      exact ⟨by rw [hun]; exact h.nodup, by rw [hun]; exact h.gone⟩
  | added c alloc f b ha hf hpc hframes hlinks hbook hentry hhist =>
      exact ⟨by rw [hhist]; exact h.nodup, by rw [hhist]; exact h.gone⟩
  | replaced c alloc f b newB u id async ha hf hpc hop hb hframes hlinks hbook hentry hhist =>
      exact h.cons hcore hb rfl hhist
  | deleted c alloc f b ha hf hpc hb hframes hlinks hbook hentry hhist => exact h.cons hcore hb rfl hhist

/-! ## The window of an updater -/

/-- The object an updater whose `kzalloc` succeeded goes on to replace. -/
def Pc.holding : Pc → Option Addr
  | .copy b _ | .lock b _ | .replace b _ => some b
  | _ => none

def Pc.unlinking : Pc → Option Addr
  | .replace b _ | .del b => some b
  | _ => none

def Pc.copying : Pc → Option Addr
  | .alloc b => some b
  | _ => none

/-- An updater whose `kzalloc` succeeds has its object on the list, and no call unlinks an
object between another updater's `kzalloc` for it and that updater's `list_replace_rcu`. -/
def Undisturbed (s : Sys) : Action → Prop
  | .run c alloc => ∀ f ∈ s.frames[c]?,
      (alloc = true → ∀ b ∈ f.pc.copying, s.mem.links.prev (.node b) ≠ .poison) ∧
      ∀ b ∈ f.pc.unlinking, ∀ c' < s.frames.length, c' ≠ c → ∀ g ∈ s.frames[c']?,
        g.pc.holding ≠ some b
  | _ => True

instance (s : Sys) (a : Action) : Decidable (Undisturbed s a) :=
  match a with
  | .run c _ => inferInstanceAs (Decidable (∀ f ∈ s.frames[c]?, _ ∧ _))
  | .call _ => isTrue trivial
  | .callback _ => isTrue trivial

def Held (s : Sys) (xs : List Addr) : Prop :=
  ∀ (c : Nat) (f : Frame) b, s.frames[c]? = some f → f.pc.holding = some b → b ∈ xs

theorem Pc.holding_of_replacing {pc : Pc} {b : Addr} (h : pc.replacing = some b) :
    pc.holding = some b := by
  cases pc <;> simp_all [Pc.replacing, Pc.holding]

theorem Held.replacesLinked (h : Held s xs) (hcore : Core s xs ut) : ReplacesLinked cfg s a := by
  right
  intro f hf b hb
  cases a with
  | run c alloc => exact hcore.prev_of_mem (h c f b hf (Pc.holding_of_replacing hb))
  | call op => cases hf
  | callback i => cases hf

/-- An updater comes to hold an object at its `kzalloc` and in no other way. -/
theorem Trans.holding (ht : Trans cfg s c f alloc t) (hf : s.frames[c]? = some f)
    (hf' : t.frames[c]? = some f') {b : Addr} (hb : f'.pc.holding = some b) :
    f.pc.unlinking = none ∧
      (f.pc.holding = some b ∨ alloc = true ∧ f.pc.copying = some b) := by
  cases ht with
  | quiet g hl ha =>
      rw [eq_of_getElem?_set hf hf'] at hb
      cases hl with
      | hit x hpc hid =>
          cases hop : f.op <;> simp [Sys.hit, hop, Pc.holding] at hb
      | _ => cases hb
  | acquire pc hfree hpc =>
      rw [eq_of_getElem?_set hf hf'] at hb
      rcases hpc with ⟨-, -, rfl⟩ | ⟨x, newB, hpc, rfl⟩ | ⟨x, -, rfl⟩
      · cases hb
      · cases hb
        simp [hpc, Pc.unlinking, Pc.holding]
      · cases hb
  | release pc hpc =>
      rw [eq_of_getElem?_set hf hf'] at hb
      rcases hpc with ⟨x, -, rfl⟩ | ⟨-, rfl⟩ | ⟨-, -, rfl⟩
      · cases hdel : f.op.deletes <;> simp [hdel, Pc.holding] at hb
      · cases hb
      · cases hb
  | alloc pc ha hpc =>
      rw [eq_of_getElem?_set hf hf'] at hb
      rcases hpc with ⟨id, name, author, -, -, rfl⟩ | ⟨x, hpc, rfl⟩
      · cases hb
      · cases hb
        simp [hpc, ha, Pc.unlinking, Pc.copying]
  | copy x newB u id async hpc hop =>
      rw [eq_of_getElem?_set hf hf'] at hb
      cases hb
      simp [hpc, Pc.unlinking, Pc.holding]
  | _ =>
      rw [eq_of_getElem?_set hf hf'] at hb
      cases hb

theorem Held.step (h : Held s xs) (hcore : Core s xs ut) (htyped : Typed s)
    (hg : Undisturbed s a) (hs : s.step cfg a = some s') (hr : Relists s a s' xs ut xs' ut') :
    Held s' xs' := by
  intro c' g b hg' hb
  -- the frame was already there and at the same step, or it is the one that moved
  have hcase : (∃ g₀, s.frames[c']? = some g₀ ∧ g₀.pc.holding = some b ∧
      ((∃ alloc, a = .run c' alloc) → g₀.pc.unlinking = none)) ∨
      ∃ f, a = .run c' true ∧ s.frames[c']? = some f ∧ f.pc.copying = some b := by
    rcases step_cases hs with
      ⟨op, rfl, rfl⟩ | ⟨c, al, f, t, rfl, hf, ht, rfl⟩ | ⟨i, x, r, rfl, -, -, rfl⟩
    · rcases getElem?_snoc_cases hg' with hk | rfl
      · exact .inl ⟨g, hk, hb, by simp⟩
      · cases hb
    · obtain ⟨f', hframes, -⟩ := ht.fits (htyped f (List.mem_of_getElem? hf))
      by_cases hc : c' = c
      · subst hc
        obtain ⟨hun, hh | ⟨rfl, hh⟩⟩ := Trans.holding (t := t) ht hf hg' hb
        · exact .inl ⟨f, hf, hh, fun _ => hun⟩
        · exact .inr ⟨f, rfl, hf, hh⟩
      · have hk : s.frames[c']? = some g := by
          simpa [Sys.tick, hframes, List.getElem?_set_ne (Ne.symm hc)] using hg'
        refine .inl ⟨g, hk, hb, ?_⟩
        intro h
        rcases h with ⟨al', heq⟩
        cases heq
        exact absurd rfl hc
    · exact .inl ⟨g, hg', hb, by simp⟩
  have hbx : b ∈ xs := by
    rcases hcase with ⟨g₀, hg₀, hh, -⟩ | ⟨f, rfl, hf, hh⟩
    · exact h c' g₀ b hg₀ hh
    · have hsafe := (hcore.frame c' f hf).reads b (by
        cases hpc : f.pc <;> simp_all [Pc.copying, Pc.reads])
      exact hcore.mem_of_prev hsafe ((hg f hf).1 rfl b hh)
  -- an object that leaves the list is not held by anyone but the call that unlinks it
  have hleaves : ∀ {c al f x}, a = .run c al → s.frames[c]? = some f →
      f.pc.unlinking = some x → b ≠ x := by
    intro c al f x ha hf hx heq
    subst ha heq
    rcases hcase with ⟨g₀, hg₀, hh, hun⟩ | ⟨f₀, heq, hf₀, hh⟩
    · by_cases hc : c' = c
      · subst hc
        cases hf.symm.trans hg₀
        rw [hun ⟨al, rfl⟩] at hx
        cases hx
      · exact (hg f hf).2 b hx c' (List.getElem?_eq_some_iff.mp hg₀).1 hc g₀ hg₀ hh
    · cases heq
      cases hf.symm.trans hf₀
      cases hpc : f.pc <;> simp_all [Pc.copying, Pc.unlinking]
  cases hr with
  | same hnext hentry hhist => exact hbx
  | added c alloc f x ha hf hpc hframes hlinks hbook hentry hhist => exact List.mem_cons_of_mem _ hbx
  | replaced c alloc f x newB u id async ha hf hpc hop hx hframes hlinks hbook hentry hhist =>
      exact (mem_rename hx).mpr (.inr ⟨hbx, hleaves ha hf (by simp [hpc, Pc.unlinking])⟩)
  | deleted c alloc f x ha hf hpc hx hframes hlinks hbook hentry hhist =>
      simpa using ⟨hbx, hleaves ha hf (by simp [hpc, Pc.unlinking])⟩

/-! ## Every run -/

/-- Every object is handed to reclamation at most once and freed at most once, by the call that
unlinked it and before that call returns; no call is about to unlink an object a second time,
and what the list head leads to was not handed to reclamation. -/
structure RetiredOnce (s : Sys) : Prop where
  retiredOnce : ((retired s.hist).map Prod.snd).Nodup
  freedOnce : (s.callbacks.map Prod.fst ++ s.mem.freed).Nodup
  byUnlinker : ∀ p ∈ retired s.hist, p ∈ unlinked s.hist
  byReturn : ∀ (c : Nat) (f : Frame) r b, s.frames[c]? = some f → f.pc = .done r →
    (c, b) ∈ unlinked s.hist → (c, b) ∈ retired s.hist
  linked : ∀ f ∈ s.frames, ∀ b ∈ f.pc.unlinking, s.mem.links.prev (.node b) ≠ .poison
  reachable : ∀ b, s.mem.Reachable b → ∀ c, (c, b) ∉ retired s.hist

structure Orderly (s : Sys) (xs : List Addr) (ut : Addr → Option Nat) : Prop extends
    Sound s xs ut where
  ledger : Ledger s
  unlinkedOnce : UnlinkedOnce s ut
  held : Held s xs

theorem Booted.orderly {m : Mem} (h : Booted m xs) (ops : List Op) :
    Orderly (Sys.boot m ops) xs (fun _ => none) := by
  refine ⟨h.sound ops, .boot h.freed ops, ⟨List.nodup_nil, fun _ hp => by cases hp⟩, ?_⟩
  intro c f b hf hb
  obtain ⟨op, -, rfl⟩ := List.mem_map.mp (List.mem_of_getElem? hf)
  cases hb

theorem Orderly.step (h : Orderly s xs ut) (hg : Undisturbed s a)
    (hs : s.step cfg a = some s') : ∃ xs' ut', Orderly s' xs' ut' := by
  obtain ⟨xs', ut', hsound, hr⟩ := h.toSound.step (h.held.replacesLinked h.core) hs
  exact ⟨xs', ut', hsound, h.ledger.step hs, h.unlinkedOnce.step h.core hr,
    h.held.step h.core h.typed hg hs hr⟩

theorem Orderly.retiredOnce (h : Orderly s xs ut) : RetiredOnce s := by
  have hnodup : ((retired s.hist).map Prod.snd).Nodup := by
    refine List.Nodup.map_on ?_ h.recorded.retiresOnce
    intro p hp q hq heq
    exact List.inj_on_of_nodup_map h.unlinkedOnce.nodup (h.recorded.retiredOnly p hp)
      (h.recorded.retiredOnly q hq) heq
  refine ⟨hnodup, h.ledger.nodup_iff.mpr hnodup, h.recorded.retiredOnly, ?_, ?_, ?_⟩
  · intro c f r b hf hpc hm
    obtain ⟨g, hg, hcase⟩ := h.recorded.unlinkedBy c b hm
    cases hf.symm.trans hg
    rcases hcase with hd | ⟨-, hre⟩
    · rw [hpc] at hd
      cases hd
    · exact hre
  · intro f hf b hb
    obtain ⟨c, hc⟩ := List.getElem?_of_mem hf
    have hbx : b ∈ xs := by
      cases hpc : f.pc with
      | replace x newB =>
          rw [hpc] at hb
          cases hb
          exact h.held c f b hc (by simp [hpc, Pc.holding])
      | del x =>
          rw [hpc] at hb
          cases hb
          exact h.core.mem_of_del h.typed hc hpc
      | _ =>
          rw [hpc] at hb
          cases hb
    exact h.core.prev_of_mem hbx
  · intro b h
    rcases h with ⟨n, hn⟩
    intro c hm
    have hbx : b ∈ xs := by
      have hring := h.core.ring.iterate_mem n
      rw [hn] at hring
      exact mem_ring_node.mp hring
    obtain ⟨t, ht⟩ := h.unlinkedOnce.gone _ (h.recorded.retiredOnly _ hm)
    rw [(h.core.linked b hbx).2] at ht
    cases ht

theorem undisturbed_retires_once {m : Mem} (hm : Booted m xs) (ops : List Op) {as : List Action}
    (hg : Along (Sys.step cfg) Undisturbed (Sys.boot m ops) as)
    (hrun : exec (Sys.step cfg) (Sys.boot m ops) as = some s) : RetiredOnce s := by
  have hinv : ∃ xs ut, Orderly s xs ut := by
    refine exec_invariant (I := fun s => ∃ xs ut, Orderly s xs ut) ?_ ⟨xs, _, hm.orderly ops⟩ hg hrun
    intro s a t hI ha hs
    obtain ⟨xs, ut, h⟩ := hI
    exact h.step ha hs
  obtain ⟨xs, ut, h⟩ := hinv
  exact h.retiredOnce

/-- A borrower and then a deleter, both reclaiming at once. -/
theorem borrow_then_delete_retires_once : ∃ s,
    exec (Sys.step ⟨false⟩) (Sys.boot oneBook [.borrowBook 0 false, .deleteBook 0 false])
      (List.replicate 13 (.run 0 true) ++ List.replicate 8 (.run 1 true)) = some s ∧
    s.frames.map Frame.pc = [.done (some 0), .done none] ∧ s.mem.freed = [1, 0] ∧
    RetiredOnce s := by
  obtain ⟨s, hs, hend⟩ := Option.map_eq_some_iff.mp (show (exec (Sys.step ⟨false⟩)
      (Sys.boot oneBook [.borrowBook 0 false, .deleteBook 0 false])
      (List.replicate 13 (.run 0 true) ++ List.replicate 8 (.run 1 true))).map
      (fun s => (s.frames.map Frame.pc, s.mem.freed)) =
      some ([.done (some 0), .done none], [1, 0]) by decide)
  obtain ⟨hpc, hfreed⟩ := Prod.mk.inj hend
  exact ⟨s, hs, hpc, hfreed, undisturbed_retires_once oneBook_booted _ (by decide) hs⟩

/-- Two borrowers that both got past the flag test hand the same object to `call_rcu`; and where
the poison faults, a deleter unlinks the book that a borrower is about to replace. -/
theorem retired_twice :
    (∃ as s, exec (Sys.step ⟨false⟩)
        (Sys.boot oneBook [.borrowBook 0 true, .borrowBook 0 true]) as = some s ∧
      s.callbacks.map Prod.fst = [0, 0] ∧ ¬ RetiredOnce s) ∧
    ∃ as s, exec (Sys.step ⟨true⟩)
        (Sys.boot oneBook [.borrowBook 0 true, .deleteBook 0 true]) as = some s ∧
      (∃ f ∈ s.frames, f.pc = .replace 0 1) ∧ s.mem.links.prev (.node 0) = .poison ∧
      ¬ RetiredOnce s := by
  constructor
  · obtain ⟨s, hs, hcb⟩ := Option.map_eq_some_iff.mp (show (exec (Sys.step ⟨false⟩)
        (Sys.boot oneBook [.borrowBook 0 true, .borrowBook 0 true])
        (List.replicate 6 (.run 0 true) ++ List.replicate 6 (.run 1 true) ++
          List.replicate 5 (.run 0 true) ++ List.replicate 5 (.run 1 true))).map
        (fun s => s.callbacks.map Prod.fst) = some [0, 0] by decide)
    refine ⟨_, s, hs, hcb, fun h => ?_⟩
    have hnodup := (List.nodup_append.mp h.freedOnce).1
    rw [hcb] at hnodup
    exact absurd hnodup (by decide)
  · obtain ⟨s, hs, hend⟩ := Option.map_eq_some_iff.mp (show (exec (Sys.step ⟨true⟩)
        (Sys.boot oneBook [.borrowBook 0 true, .deleteBook 0 true])
        (List.replicate 6 (.run 0 true) ++ List.replicate 6 (.run 1 true) ++ [.run 0 true])).map
        (fun s => (s.frames, s.mem.links.prev (.node 0))) =
        some ([⟨.borrowBook 0 true, .replace 0 1, some 0⟩, ⟨.deleteBook 0 true, .done none, none⟩],
          .poison) by decide)
    obtain ⟨hframes, hprev⟩ := Prod.mk.inj hend
    have hf : (⟨.borrowBook 0 true, .replace 0 1, some 0⟩ : Frame) ∈ s.frames := by simp [hframes]
    exact ⟨_, s, hs, ⟨_, hf, rfl⟩, hprev, fun h => h.linked _ hf 0 rfl hprev⟩

end KernelTrg.Books
