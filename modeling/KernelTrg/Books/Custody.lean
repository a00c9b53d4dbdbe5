import KernelTrg.Books.Retiring

/-!
# Where every object is

An object is on the list, in the hands of one call, waiting for its callback, or
freed. In an undisturbed run every object handed out by `kzalloc` is in one of these
places and in one only, so nothing is leaked, lost or freed while in use.
-/

namespace KernelTrg.Books

open LinkRing Runs

variable {cfg : Config} {s s' t : Sys} {a : Action} {xs xs' ys : List Addr}
  {ut ut' : Addr → Option Nat} {c : Nat} {f f' : Frame} {alloc : Bool}

/-- The objects in the hands of the call: not yet linked, or unlinked and not yet handed on. -/
def Frame.hands (f : Frame) : List Addr := f.pc.fresh.toList ++ f.pc.doomed.toList

/-- Every object by its place: listed, in a call's hands, waiting for its callback, freed. -/
def Sys.places (s : Sys) (listed : List Addr) : List Addr :=
  listed ++ s.frames.flatMap Frame.hands ++ s.callbacks.map Prod.fst ++ s.mem.freed

/-- The objects allocated so far are those in some place, each in one. -/
def InPlace (s : Sys) (listed : List Addr) : Prop :=
  (s.places listed).Perm (List.range s.mem.brk)

/-! ## Rings and frames -/

/-- The links of a ring determine it. -/
theorem isRing_unique {L : Links Addr} (h : IsRing L xs) (h' : IsRing L ys) : xs = ys := by
  have hfront : front xs = front ys := by rw [← h.next_head, ← h'.next_head]
  let m : Mem := { Mem.init with links := L }
  have hx : m.collect (xs.length + ys.length) (front xs) = xs := collect_suffix [] h ys.length
  have hy : m.collect (ys.length + xs.length) (front ys) = ys := collect_suffix [] h' xs.length
  rw [hfront, Nat.add_comm] at hx
  exact hx.symm.trans hy

/-- A step of one call moves objects between its hands and the other places. -/
theorem InPlace.set (h : InPlace s xs) (hf : s.frames[c]? = some f)
    (hframes : s'.frames = s.frames.set c f')
    (hmove : ∀ x, (xs' ++ f'.hands ++ s'.callbacks.map Prod.fst ++ s'.mem.freed).count x +
        (List.range s.mem.brk).count x =
      (xs ++ f.hands ++ s.callbacks.map Prod.fst ++ s.mem.freed).count x +
        (List.range s'.mem.brk).count x) : InPlace s' xs' := by
  rw [InPlace, List.perm_iff_count] at h ⊢
  intro x
  have hold := h x
  have hset := sum_map_set (y := f') (List.count x ∘ Frame.hands) (List.count x ∘ Frame.hands) hf
    fun _ _ _ _ => rfl
  have hnew := hmove x
  simp only [Sys.places, List.count_append, List.count_flatMap, hframes] at hold hnew ⊢
  simp only [Function.comp_apply] at hset
  omega

/-! ## One step -/

theorem Local.hands (hl : Local s f f') : f'.hands = f.hands := by
  cases hl with
  | hit b hpc hid =>
      obtain ⟨-, hfresh, hdoomed⟩ := Sys.hit_holds f.op b
      simp only [Frame.hands, hpc, hfresh, hdoomed]
      rfl
  | noMemory hpc | enter hpc | first hpc | finish hpc | miss b hpc | wild p hpc | next b hpc
  | refuse b u id async hpc | accept b u id async hpc | giveUp b hpc | leave b hpc | sync b hpc
  | grace b t hpc | found b hpc | late b hpc | print b hpc | exit hpc =>
      simp [Frame.hands, hpc, Pc.fresh, Pc.doomed]

theorem InPlace.trans (h : InPlace s xs) (hcore : Core s xs ut) (htyped : Typed s)
    (hheld : Held s xs) (hcore' : Core t.tick xs' ut') (hf : s.frames[c]? = some f)
    (ht : Trans cfg s c f alloc t) : InPlace t.tick xs' := by
  -- a step that leaves the links of the ring alone leaves the list alone
  have same : ∀ {n}, AgreeOff n s.mem t.mem → n ∉ xs → xs' = xs := fun hoff hn =>
    isRing_unique hcore'.ring (hoff.isRing hcore.ring hn)
  have hbrk := hcore.brk_fresh.1
  have hkeep : ∀ f', f'.hands = f.hands → t.frames = s.frames.set c f' → t.mem = s.mem →
      t.callbacks = s.callbacks → InPlace t.tick xs' := by
    intro f' hh hframes hmem hcb
    have hoff : AgreeOff s.mem.brk s.mem t.mem := by
      rw [hmem]
      exact .refl _ _
    rw [same hoff hbrk]
    refine h.set hf hframes fun x => ?_
    simp only [Sys.tick, hh, hmem, hcb]
  cases ht with
  | quiet f' hl ha => exact hkeep f' hl.hands rfl rfl rfl
  | acquire pc hfree hpc =>
      refine hkeep { f with pc := pc } ?_ rfl rfl rfl
      rcases hpc with ⟨hpc, -, rfl⟩ | ⟨b, newB, hpc, rfl⟩ | ⟨b, hpc, rfl⟩ <;>
        simp [Frame.hands, hpc, Pc.fresh, Pc.doomed]
  | release pc hpc =>
      refine hkeep { f with pc := pc } ?_ rfl rfl rfl
      rcases hpc with ⟨b, hpc, rfl⟩ | ⟨hpc, rfl⟩ | ⟨hpc, -, rfl⟩
      · cases hdel : f.op.deletes <;> simp [Frame.hands, hpc, Pc.fresh, Pc.doomed]
      · simp [Frame.hands, hpc, Pc.fresh, Pc.doomed]
      · simp [Frame.hands, hpc, Pc.fresh, Pc.doomed]
  | alloc pc ha hpc =>
      rw [same (AgreeOff.kzalloc s.mem) hbrk]
      have hhands : f.hands = [] ∧ ({ f with pc := pc } : Frame).hands = [s.mem.brk] := by
        rcases hpc with ⟨id, name, author, -, hpc, rfl⟩ | ⟨b, hpc, rfl⟩ <;>
          simp [Frame.hands, hpc, Pc.fresh, Pc.doomed]
      refine h.set hf rfl fun x => ?_
      simp only [Sys.tick, Sys.goto, Mem.kzalloc, hhands, List.range_succ, List.count_append,
        List.count_nil]
      omega
  | copy b newB u id async hpc hop =>
      have hn := ((hcore.frame c f hf).fresh newB (by simp [hpc, Pc.fresh])).2.1
      rw [same ((AgreeOff.memcpy s.mem newB b).trans (AgreeOff.setBook ..)) hn]
      refine h.set hf rfl fun x => ?_
      simp [Sys.tick, Sys.goto, Frame.hands, hpc, Pc.fresh, Pc.doomed, Mem.memcpy, Mem.setBorrow,
        Mem.setBook]
  | init b v hpc hv =>
      have hn := ((hcore.frame c f hf).fresh b (by simp [hpc, Pc.fresh])).2.1
      rw [same (AgreeOff.setBook s.mem b v) hn]
      refine h.set hf rfl fun x => ?_
      simp [Sys.tick, Sys.goto, Frame.hands, hpc, Pc.fresh, Pc.doomed, Mem.setBook]
  | replaceFault b newB hpc hcfg hp =>
      exact absurd hp (hcore.prev_of_mem (hheld c f b hf (by simp [hpc, Pc.holding])))
  | replace b newB u id async hpc hop hp =>
      have hb : b ∈ xs := hheld c f b hf (by simp [hpc, Pc.holding])
      have hn := ((hcore.frame c f hf).fresh newB (by simp [hpc, Pc.fresh])).2.1
      obtain ⟨ys, zs, rfl⟩ := List.append_of_mem hb
      have hxs : xs' = ys ++ newB :: zs := by
        rw [← rename_split hcore.ring.nodup]
        exact isRing_unique hcore'.ring (hcore.ring.replace hb hn)
      rw [hxs]
      refine h.set hf rfl fun x => ?_
      simp only [Sys.tick, Sys.goto, Mem.listReplaceRcu, Frame.hands, hpc, Pc.fresh, Pc.doomed,
        List.count_append, List.count_cons, Option.toList_some, Option.toList_none, List.count_nil]
      omega
  | delFault b hpc hcfg hp =>
      exact absurd hp (hcore.prev_of_mem (hcore.mem_of_del htyped hf hpc))
  | del b hpc hp =>
      obtain ⟨ys, zs, rfl⟩ := List.append_of_mem (hcore.mem_of_del htyped hf hpc)
      have hxs : xs' = ys ++ zs := by
        rw [← filter_split hcore.ring.nodup]
        exact isRing_unique hcore'.ring (hcore.ring.unlink (by simp))
      rw [hxs]
      refine h.set hf rfl fun x => ?_
      simp only [Sys.tick, Sys.goto, Mem.listDelRcu, Frame.hands, hpc, Pc.fresh, Pc.doomed,
        List.count_append, List.count_cons, Option.toList_some, Option.toList_none, List.count_nil]
      omega
  | add b hpc =>
      have hn := ((hcore.frame c f hf).fresh b (by simp [hpc, Pc.fresh])).2.1
      rw [isRing_unique hcore'.ring (hcore.ring.insert hn)]
      refine h.set hf rfl fun x => ?_
      simp only [Sys.tick, Sys.goto, Mem.listAddRcu, Frame.hands, hpc, Pc.fresh, Pc.doomed,
        List.count_append, List.count_cons, Option.toList_some, Option.toList_none, List.count_nil]
      omega
  | callRcu b hpc ha =>
      rw [isRing_unique hcore'.ring hcore.ring]
      refine h.set hf rfl fun x => ?_
      simp only [Sys.tick, Sys.goto, Frame.hands, hpc, Pc.fresh, Pc.doomed, List.map_append,
        List.count_append, List.count_cons, Option.toList_some, Option.toList_none, List.count_nil,
        List.map_cons, List.map_nil]
      omega
  | free b hpc =>
      rw [isRing_unique hcore'.ring hcore.ring]
      refine h.set hf rfl fun x => ?_
      simp only [Sys.tick, Sys.goto, Mem.kfree, Frame.hands, hpc, Pc.fresh, Pc.doomed,
        List.count_append, List.count_cons, Option.toList_some, Option.toList_none, List.count_nil]
      omega

theorem InPlace.step (h : InPlace s xs) (hcore : Core s xs ut) (htyped : Typed s)
    (hheld : Held s xs) (hcore' : Core s' xs' ut') (hs : s.step cfg a = some s') :
    InPlace s' xs' := by
  rcases step_cases hs with ⟨op, -, rfl⟩ | ⟨c, al, f, t, -, hf, ht, rfl⟩ | ⟨i, b, r, -, hi, -, rfl⟩
  · rw [isRing_unique hcore'.ring hcore.ring]
    simpa [InPlace, Sys.places, Sys.tick, Frame.new, Frame.hands, Pc.fresh, Pc.doomed] using h
  · exact h.trans (t := t) hcore htyped hheld hcore' hf ht
  · -- the freed object leaves the waiting ones
    rw [isRing_unique hcore'.ring hcore.ring]
    obtain ⟨hlt, hget⟩ := List.getElem?_eq_some_iff.mp hi
    have hwaiting := ((List.getElem_cons_eraseIdx_perm hlt).map Prod.fst)
    rw [hget] at hwaiting
    rw [InPlace, List.perm_iff_count] at h ⊢
    rw [List.perm_iff_count] at hwaiting
    intro x
    have hold := h x
    have hcount := hwaiting x
    simp only [Sys.places, Sys.tick, Mem.kfree, List.count_append, List.count_cons, List.map_cons]
      at hold hcount ⊢
    omega

/-! ## Every run -/

/-- Every object handed out so far is in one place; once all calls have returned and no callback
is waiting, what is not on the list has been freed. -/
structure Accounted (s : Sys) : Prop where
  placed : (s.places s.mem.onList).Perm (List.range s.mem.brk)
  settled : (∀ f ∈ s.frames, ∃ r, f.pc = .done r) → s.callbacks = [] →
    (s.mem.onList ++ s.mem.freed).Perm (List.range s.mem.brk)

theorem InPlace.accounted (h : InPlace s xs) (hcore : Core s xs ut) : Accounted s := by
  have hlist : s.mem.onList = xs := onList_eq hcore.ring fun b hb => (hcore.linked b hb).1
  refine ⟨by rw [hlist]; exact h, ?_⟩
  intro hdone hcb
  have hhands : s.frames.flatMap Frame.hands = [] := by
    rw [List.flatMap_eq_nil_iff]
    intro f hf
    obtain ⟨r, hpc⟩ := hdone f hf
    simp [Frame.hands, hpc, Pc.fresh, Pc.doomed]
  rw [hlist]
  simpa [InPlace, Sys.places, hhands, hcb] using h

/-- In an undisturbed run from a memory with every object on the list, no object is ever lost. -/
theorem undisturbed_accounts {m : Mem} (hm : Booted m xs) (hall : ∀ b < m.brk, b ∈ xs)
    (ops : List Op) {as : List Action}
    (hg : Along (Sys.step cfg) Undisturbed (Sys.boot m ops) as)
    (hrun : exec (Sys.step cfg) (Sys.boot m ops) as = some s) : Accounted s := by
  have hboot : InPlace (Sys.boot m ops) xs := by
    have hhands : (ops.map Frame.new).flatMap Frame.hands = [] := by
      rw [List.flatMap_eq_nil_iff]
      intro f hf
      obtain ⟨op, -, rfl⟩ := List.mem_map.mp hf
      rfl
    have hperm : xs.Perm (List.range m.brk) := by
      rw [List.perm_ext_iff_of_nodup hm.ring.nodup List.nodup_range]
      intro b
      rw [List.mem_range]
      exact ⟨hm.linked b, hall b⟩
    simpa [InPlace, Sys.places, Sys.boot, hhands, hm.freed] using hperm
  have hinv : ∃ xs ut, Orderly s xs ut ∧ InPlace s xs := by
    refine exec_invariant (I := fun s => ∃ xs ut, Orderly s xs ut ∧ InPlace s xs) ?_
      ⟨xs, _, hm.orderly ops, hboot⟩ hg hrun
    intro s a s' hI ha hs
    obtain ⟨xs, ut, h, hk⟩ := hI
    obtain ⟨xs', ut', h'⟩ := h.step ha hs
    exact ⟨xs', ut', h', hk.step h.core h.typed h.held h'.core hs⟩
  obtain ⟨xs, ut, h, hk⟩ := hinv
  exact hk.accounted h.core

/-- A book is added, borrowed and deleted; its two objects end up freed. -/
theorem add_borrow_delete_accounts : ∃ s,
    exec (Sys.step ⟨false⟩)
      (Sys.boot Mem.init [.addBook 0 [] [], .borrowBook 0 false, .deleteBook 0 true])
      (List.replicate 5 (.run 0 true) ++ List.replicate 13 (.run 1 true) ++
        List.replicate 6 (.run 2 true) ++ [.callback 0]) = some s ∧
    s.frames.map Frame.pc = [.done none, .done (some 0), .done none] ∧ s.mem.freed = [1, 0] ∧
    Accounted s := by
  obtain ⟨s, hs, hend⟩ := Option.map_eq_some_iff.mp (show (exec (Sys.step ⟨false⟩)
      (Sys.boot Mem.init [.addBook 0 [] [], .borrowBook 0 false, .deleteBook 0 true])
      (List.replicate 5 (.run 0 true) ++ List.replicate 13 (.run 1 true) ++
        List.replicate 6 (.run 2 true) ++ [.callback 0])).map
      (fun s => (s.frames.map Frame.pc, s.mem.freed)) =
      some ([.done none, .done (some 0), .done none], [1, 0]) by decide)
  obtain ⟨hpc, hfreed⟩ := Prod.mk.inj hend
  have hm : Booted Mem.init [] := ⟨IsRing.empty ⟨by decide, by decide⟩, by simp, rfl⟩
  exact ⟨s, hs, hpc, hfreed, undisturbed_accounts hm (by decide) _ (by decide) hs⟩

end KernelTrg.Books
