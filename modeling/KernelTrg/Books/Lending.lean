import KernelTrg.Books.Contents
import KernelTrg.Books.Sequential

/-!
# Lending a book to one reader at a time

An entry of the catalogue lives on through a chain of copies, and the object that
`add_book` made for it names it. The flag of the linked copy tells which updater
replaced the entry last; an updater that replaces a linked object has read that very
flag, so the updates of one entry alternate.
-/

namespace KernelTrg.Books

open LinkRing Runs

/-! ## The updates of one entry -/

/-- The last update of the entry, the event list being newest first. -/
def lastUpdate (e : Addr) : List Event → Option Update
  | [] => none
  | .replaced _ u x _ :: l => if x = e then some u else lastUpdate e l
  | _ :: l => lastUpdate e l

/-- No entry is updated the same way twice in a row. -/
def Alternates : List Event → Prop
  | [] => True
  | .replaced _ u e _ :: l => lastUpdate e l ≠ some u ∧ Alternates l
  | _ :: l => Alternates l

section Updates

variable {l l₁ l₂ : List Event} {e b : Addr} {c : Nat} {u u' : Update}

theorem lastUpdate_eq_none (h : ∀ c u b, .replaced c u e b ∉ l) : lastUpdate e l = none := by
  induction l with
  | nil => rfl
  | cons ev l ih =>
      have hrest := ih fun c u b hm => h c u b (List.mem_cons_of_mem _ hm)
      cases ev with
      | replaced c u x b =>
          have hne : x ≠ e := by
            intro h
            subst h
            exact h c u b (List.mem_cons_self ..)
          simp [lastUpdate, hne, hrest]
      | deleted c b => exact hrest
      | retired c b => exact hrest

theorem Alternates.of_append (h : Alternates (l₁ ++ l₂)) : Alternates l₂ := by
  induction l₁ with
  | nil => exact h
  | cons ev l ih =>
      cases ev with
      | replaced c u x b => exact ih h.2
      | deleted c b => exact ih h
      | retired c b => exact ih h

/-- As long as nothing but `u` happens to the entry, `u` stays its last update. -/
theorem lastUpdate_append (h : ∀ c v b, .replaced c v e b ∈ l₂ → v = u) :
    lastUpdate e (l₂ ++ .replaced c u e b :: l₁) = some u := by
  induction l₂ with
  | nil => simp [lastUpdate]
  | cons ev l ih =>
      have hrest := ih fun c v b hm => h c v b (List.mem_cons_of_mem _ hm)
      cases ev with
      | replaced c' v x b' =>
          by_cases hx : x = e
          · subst hx
            rw [h c' v b' (List.mem_cons_self ..)]
            simp [lastUpdate]
          · simpa [lastUpdate, hx] using hrest
      | deleted c b => exact hrest
      | retired c b => exact hrest

/-- Between two equal updates of an entry lies another kind of update of it. -/
theorem Alternates.between {l₃ : List Event} {c' : Nat} {b' : Addr}
    (h : Alternates (l₃ ++ .replaced c' u e b' :: (l₂ ++ .replaced c u e b :: l₁))) :
    ∃ c v x, .replaced c v e x ∈ l₂ ∧ v ≠ u := by
  by_contra hnone
  refine h.of_append.1 (lastUpdate_append ?_)
  intro c v x hm
  by_contra hv
  exact hnone ⟨c, v, x, hm, hv⟩

end Updates

theorem Update.refuses_flag (u : Update) : u.refuses u.flag = true := by cases u <;> rfl

/-! ## The invariant -/

variable {cfg : Config} {s s' t : Sys} {a : Action} {xs xs' : List Addr}
  {ut ut' : Addr → Option Nat} {c : Nat} {f : Frame}

structure Lending (s : Sys) (xs : List Addr) (ut : Addr → Option Nat) : Prop where
  flags : ∀ x ∈ xs, ∀ u, lastUpdate (s.entry x) s.hist = some u →
    u.refuses (s.mem.book x).borrow = true
  single : ∀ x ∈ xs, ∀ y ∈ xs, s.entry x = s.entry y → x = y
  own : ∀ x, ¬ Published xs ut x → s.entry x = x
  named : ∀ x ∈ xs, Published xs ut (s.entry x) ∧
    (s.mem.book x).id = (s.mem.book (s.entry x)).id
  events : ∀ c u e b, .replaced c u e b ∈ s.hist → Published xs ut e ∧
    ∃ f, s.frames[c]? = some f ∧ f.op.id = (s.mem.book e).id
  alternates : Alternates s.hist

theorem Lending.boot (m : Mem) (xs : List Addr) (ops : List Op) :
    Lending (Sys.boot m ops) xs (fun _ => none) where
  flags := fun _ _ _ h => by cases h
  single := fun _ _ _ _ h => h
  own := fun _ _ => rfl
  named := fun _ hx => ⟨.inl hx, rfl⟩
  events := fun _ _ _ _ h => by cases h
  alternates := trivial

theorem op_step (htyped : Typed s) (hs : s.step cfg a = some s') (hf : s.frames[c]? = some f) :
    ∃ f', s'.frames[c]? = some f' ∧ f'.op = f.op := by
  have hlt := (List.getElem?_eq_some_iff.mp hf).1
  rcases step_cases hs with ⟨op, -, rfl⟩ | ⟨c', al, g, t, -, hg, ht, rfl⟩ | ⟨i, b, t, -, -, -, rfl⟩
  · exact ⟨f, by simp [Sys.tick, List.getElem?_append_left hlt, hf], rfl⟩
  · obtain ⟨g', hframes, hop, -⟩ := ht.fits (htyped g (List.mem_of_getElem? hg))
    by_cases hc : c = c'
    · subst hc
      cases hf.symm.trans hg
      exact ⟨g', by simp [Sys.tick, hframes, List.getElem?_set_self hlt], hop⟩
    · exact ⟨f, by simp [Sys.tick, hframes, List.getElem?_set_ne (Ne.symm hc), hf], rfl⟩
  · exact ⟨f, hf, rfl⟩

theorem Lending.events_step (hl : Lending s xs ut) (h : Core s xs ut) (htyped : Typed s)
    (hs : s.step cfg a = some s') (hr : Relists s a s' xs ut xs' ut') :
    ∀ c u e b, .replaced c u e b ∈ s.hist → Published xs' ut' e ∧
      ∃ f, s'.frames[c]? = some f ∧ f.op.id = (s'.mem.book e).id := by
  intro c u e b hm
  obtain ⟨hpub, f, hf, hid⟩ := hl.events c u e b hm
  obtain ⟨f', hf', hop⟩ := op_step htyped hs hf
  exact ⟨hr.published hpub, f', hf', by rw [hop, hid, h.book_step hs hpub]⟩

theorem Lending.named_step (hl : Lending s xs ut) (h : Core s xs ut)
    (hs : s.step cfg a = some s') (hr : Relists s a s' xs ut xs' ut') {x : Addr} (hx : x ∈ xs) :
    Published xs' ut' (s.entry x) ∧ (s'.mem.book x).id = (s'.mem.book (s.entry x)).id := by
  obtain ⟨hpub, hid⟩ := hl.named x hx
  exact ⟨hr.published hpub, by rw [h.book_step hs (.inl hx), h.book_step hs hpub, hid]⟩

theorem Lending.step (hl : Lending s xs ut) (h : Core s xs ut) (htyped : Typed s)
    (hk : AllChecked s) (hs : s.step cfg a = some s') (hr : Relists s a s' xs ut xs' ut') :
    Lending s' xs' ut' := by
  have hevents := hl.events_step h htyped hs hr
  have hown : ∀ x, ¬ Published xs' ut' x → s.entry x = x := fun x hx =>
    hl.own x fun hp => hx (hr.published hp)
  have hnamed : ∀ x ∈ xs, _ := fun x hx => hl.named_step h hs hr (x := x) hx
  cases hr with
  | same hnext hentry hhist =>
      have hlast : ∀ e, lastUpdate e s'.hist = lastUpdate e s.hist := by
        intro e
        rcases hhist with hh | ⟨c, b, hh⟩ <;> (rw [hh]; try rfl)
      have hmem : ∀ c u e b, .replaced c u e b ∈ s'.hist → .replaced c u e b ∈ s.hist := by
        intro c u e b hm
        rcases hhist with hh | ⟨c', b', hh⟩
        · exact hh ▸ hm
        · rw [hh] at hm
          exact (List.mem_cons.mp hm).resolve_left (by simp)
      constructor
      case flags =>
        intro x hx u hu
        rw [hentry, hlast] at hu
        rw [h.book_step hs (.inl hx)]
        exact hl.flags x hx u hu
      case single =>
        rw [hentry]
        exact hl.single
      case own =>
        rw [hentry]
        exact hown
      case named =>
        rw [hentry]
        exact hnamed
      case events =>
        exact fun c u e b hm => hevents c u e b (hmem c u e b hm)
      case alternates =>
        rcases hhist with hh | ⟨c, b, hh⟩ <;> rw [hh] <;> exact hl.alternates
  | added c alloc f b ha hf hpc hframes hlinks hbook hentry hhist =>
      have hbpub := h.fresh_unpublished hf (n := b) (by simp [hpc, Pc.fresh])
      have hb : s.entry b = b := hl.own b hbpub
      have hne : ∀ y ∈ xs, s.entry y ≠ b := fun y hy e => hbpub (e ▸ (hl.named y hy).1)
      constructor
      case flags =>
        intro x hx u hu
        rw [hentry, hhist] at hu
        rw [hbook]
        rcases List.mem_cons.mp hx with rfl | hx
        · rw [hb, lastUpdate_eq_none fun c u y hm => hbpub (hl.events c u x y hm).1] at hu
          cases hu
        · exact hl.flags x hx u hu
      case single =>
        intro x hx y hy hxy
        rw [hentry] at hxy
        rcases List.mem_cons.mp hx with rfl | hx₁
        · rcases List.mem_cons.mp hy with rfl | hy₁
          · rfl
          · exact absurd (hxy.symm.trans hb) (hne y hy₁)
        · rcases List.mem_cons.mp hy with rfl | hy₁
          · exact absurd (hxy.trans hb) (hne x hx₁)
          · exact hl.single x hx₁ y hy₁ hxy
      case own =>
        rw [hentry]
        exact hown
      case named =>
        intro x hx
        rw [hentry]
        rcases List.mem_cons.mp hx with rfl | hx
        · rw [hb]
          exact ⟨.inl (List.mem_cons_self ..), rfl⟩
        · exact hnamed x hx
      case events =>
        rw [hhist]
        exact hevents
      case alternates =>
        rw [hhist]
        exact hl.alternates
  | replaced c alloc f b newB u id async ha hf hpc hop hb hframes hlinks hbook hentry hhist =>
      obtain ⟨hnew, hnx, -⟩ := (h.frame c f hf).fresh newB (by simp [hpc, Pc.fresh])
      have hchecked := hk c f hf
      have hpassed := hchecked.passed b u id async (by simp [hpc, Pc.chosen]) hop
      have hcopy := hchecked.copied b newB u id async (by simp [hpc, Pc.copied]) hop
      have hnewEntry : s'.entry newB = s.entry b := by rw [hentry, Function.update_self]
      have hkeep : ∀ x ∈ xs, s'.entry x = s.entry x := by
        intro x hx
        have hne : x ≠ newB := fun e => hnx (e ▸ hx)
        rw [hentry, Function.update_of_ne hne]
      constructor
      case flags =>
        intro x hx v hv
        rw [hhist] at hv
        rw [hbook]
        rcases (mem_rename hb).mp hx with rfl | ⟨hx, hxb⟩
        · rw [hnewEntry] at hv
          have huv : u = v := by simpa [lastUpdate] using hv
          rw [hcopy, ← huv]
          exact u.refuses_flag
        · rw [hkeep x hx] at hv
          have hne : s.entry b ≠ s.entry x := fun e => hxb (hl.single x hx b hb e.symm)
          simp only [lastUpdate, if_neg hne] at hv
          exact hl.flags x hx v hv
      case single =>
        intro x hx y hy hxy
        rcases (mem_rename hb).mp hx with rfl | ⟨hx₁, hxb⟩
        · rcases (mem_rename hb).mp hy with rfl | ⟨hy₁, hyb⟩
          · rfl
          · rw [hnewEntry, hkeep y hy₁] at hxy
            exact absurd (hl.single b hb y hy₁ hxy).symm hyb
        · rcases (mem_rename hb).mp hy with rfl | ⟨hy₁, hyb⟩
          · rw [hnewEntry, hkeep x hx₁] at hxy
            exact absurd (hl.single x hx₁ b hb hxy) hxb
          · rw [hkeep x hx₁, hkeep y hy₁] at hxy
            exact hl.single x hx₁ y hy₁ hxy
      case own =>
        intro x hx
        have hne : x ≠ newB := by
          intro h
          subst h
          exact hx (.inl ((mem_rename hb).mpr (.inl rfl)))
        rw [hentry, Function.update_of_ne hne]
        exact hown x hx
      case named =>
        intro x hx
        rcases (mem_rename hb).mp hx with rfl | ⟨hx, -⟩
        · obtain ⟨hpub, hid⟩ := hnamed b hb
          rw [hnewEntry, ← hid, hbook, hcopy]
          exact ⟨hpub, rfl⟩
        · rw [hkeep x hx]
          exact hnamed x hx
      case events =>
        intro c' v e y hm
        rw [hhist] at hm
        rcases List.mem_cons.mp hm with heq | hm
        · cases heq
          obtain ⟨hpub, hid⟩ := hnamed b hb
          obtain ⟨f', hf', hop'⟩ := op_step htyped hs hf
          refine ⟨hpub, f', hf', ?_⟩
          rw [hop', ← hid, hbook]
          exact (hchecked.found b (by simp [hpc, Pc.target])).symm
        · exact hevents c' v e y hm
      case alternates =>
        rw [hhist]
        refine ⟨fun hlast => ?_, hl.alternates⟩
        rw [hl.flags b hb u hlast] at hpassed
        cases hpassed
  | deleted c alloc f b ha hf hpc hb hframes hlinks hbook hentry hhist =>
      have hsub : ∀ x ∈ xs.filter (· ≠ b), x ∈ xs := fun x hx => (List.mem_filter.mp hx).1
      constructor
      case flags =>
        intro x hx u hu
        rw [hentry, hhist] at hu
        rw [hbook]
        exact hl.flags x (hsub x hx) u hu
      case single =>
        intro x hx y hy hxy
        rw [hentry] at hxy
        exact hl.single x (hsub x hx) y (hsub y hy) hxy
      case own =>
        rw [hentry]
        exact hown
      case named =>
        intro x hx
        rw [hentry]
        exact hnamed x (hsub x hx)
      case events =>
        intro c' u e y hm
        rw [hhist] at hm
        rcases List.mem_cons.mp hm with heq | hm
        · cases heq
        · exact hevents c' u e y hm
      case alternates =>
        rw [hhist]
        exact hl.alternates

/-! ## Every run -/

/-- Updaters return 0 exactly when they have replaced the object of an entry, and between two
`borrow_book` calls that did so for one entry comes a `return_book` for the same id. -/
structure ExclusiveLending (s : Sys) : Prop where
  zero : ∀ (c : Nat) (f : Frame) u id async r, s.frames[c]? = some f →
    f.op = .updateBook u id async → f.pc = .done r →
    (r = some 0 ↔ ∃ e b, .replaced c u e b ∈ s.hist)
  between : ∀ l₁ l₂ l₃ c₁ c₂ e b₁ b₂,
    s.hist = l₃ ++ .replaced c₂ .borrow e b₂ :: (l₂ ++ .replaced c₁ .borrow e b₁ :: l₁) →
    ∃ (c : Nat) (b : Addr) (f f₁ : Frame) (id : Int) (async async₁ : Bool),
      .replaced c .giveBack e b ∈ l₂ ∧ s.frames[c]? = some f ∧ f.op = .returnBook id async ∧
      s.frames[c₁]? = some f₁ ∧ f₁.op = .borrowBook id async₁

structure Sound (s : Sys) (xs : List Addr) (ut : Addr → Option Nat) : Prop where
  typed : Typed s
  recorded : Recorded s
  checked : AllChecked s
  core : Core s xs ut
  lending : Lending s xs ut

theorem Booted.sound {m : Mem} (h : Booted m xs) (ops : List Op) :
    Sound (Sys.boot m ops) xs (fun _ => none) :=
  ⟨.boot m ops, .boot m ops, .boot m ops, h.core ops, .boot m xs ops⟩

theorem Sound.step (h : Sound s xs ut) (hg : ReplacesLinked cfg s a)
    (hs : s.step cfg a = some s') : ∃ xs' ut', Sound s' xs' ut' ∧ Relists s a s' xs ut xs' ut' := by
  obtain ⟨xs', ut', hcore, hr⟩ := h.core.step h.typed hg hs
  exact ⟨xs', ut', ⟨h.typed.step hs, h.recorded.step h.typed hs,
    h.checked.step h.core h.typed hs, hcore, h.lending.step h.core h.typed h.checked hs hr⟩, hr⟩

theorem Sound.exclusive (h : Sound s xs ut) : ExclusiveLending s where
  zero := by
    intro c f u id async r hf hop hpc
    constructor
    · intro h
      subst h
      exact h.recorded.committed c f u id async hf hop (.inr hpc)
    · intro h
      rcases h with ⟨e, b, hm⟩
      obtain ⟨g, hg, hcase⟩ := h.recorded.unlinkedBy c b (mem_unlinked_of_replaced hm)
      cases hf.symm.trans hg
      rcases hcase with hd | ⟨hd, -⟩
      · rw [hpc] at hd
        cases hd
      · rw [hpc, hop] at hd
        exact Pc.done.inj hd
  between := by
    intro l₁ l₂ l₃ c₁ c₂ e b₁ b₂ hhist
    have halt := h.lending.alternates
    rw [hhist] at halt
    obtain ⟨c, u, b, hm, hu⟩ := halt.between
    have hback : u = .giveBack := by cases u <;> simp_all
    subst hback
    have hin : .replaced c .giveBack e b ∈ s.hist := by simp [hhist, hm]
    have hin₁ : .replaced c₁ .borrow e b₁ ∈ s.hist := by simp [hhist]
    obtain ⟨f, id, async, hf, hop⟩ := h.recorded.updater _ _ _ _ hin
    obtain ⟨f₁, id₁, async₁, hf₁, hop₁⟩ := h.recorded.updater _ _ _ _ hin₁
    obtain ⟨-, g, hg, hid⟩ := h.lending.events _ _ _ _ hin
    obtain ⟨-, g₁, hg₁, hid₁⟩ := h.lending.events _ _ _ _ hin₁
    cases hf.symm.trans hg
    cases hf₁.symm.trans hg₁
    have heq : id₁ = id := by
      have := hid₁.trans hid.symm
      rwa [hop, hop₁] at this
    exact ⟨c, b, f, f₁, id, async, async₁, hm, hf, hop, hf₁, heq ▸ hop₁⟩

/-- Lending is exclusive in every run whose replacements find the old object still linked. -/
theorem lending_exclusive {m : Mem} (hm : Booted m xs) (ops : List Op) {as : List Action}
    (hg : Along (Sys.step cfg) (ReplacesLinked cfg) (Sys.boot m ops) as)
    (hrun : exec (Sys.step cfg) (Sys.boot m ops) as = some s) : ExclusiveLending s := by
  have hinv : ∃ xs ut, Sound s xs ut := by
    refine exec_invariant (I := fun s => ∃ xs ut, Sound s xs ut) ?_ ⟨xs, _, hm.sound ops⟩ hg hrun
    intro s a t hI ha hs
    obtain ⟨xs, ut, h⟩ := hI
    obtain ⟨xs', ut', h', -⟩ := h.step ha hs
    exact ⟨xs', ut', h'⟩
  obtain ⟨xs, ut, h⟩ := hinv
  exact h.exclusive

def oneBook : Mem := (addBook Module.init 0 [] [] true).mem

theorem oneBook_booted : Booted oneBook [0] where
  ring := (IsRing.empty (L := Mem.init.kzalloc.links) ⟨by decide, by decide⟩).insert (by simp)
  linked := by decide
  freed := rfl

/-- Three calls one after the other: borrowed, returned, borrowed again. -/
theorem lending_exclusive_in_turn : ∃ s,
    exec (Sys.step ⟨false⟩) (Sys.boot oneBook
      [.borrowBook 0 true, .returnBook 0 true, .borrowBook 0 true])
      (List.replicate 11 (.run 0 true) ++ List.replicate 11 (.run 1 true) ++
        List.replicate 11 (.run 2 true)) = some s ∧
    s.frames.map Frame.pc = [.done (some 0), .done (some 0), .done (some 0)] ∧
    ExclusiveLending s := by
  obtain ⟨s, hs, hpc⟩ := Option.map_eq_some_iff.mp (show (exec (Sys.step ⟨false⟩)
      (Sys.boot oneBook [.borrowBook 0 true, .returnBook 0 true, .borrowBook 0 true])
      (List.replicate 11 (.run 0 true) ++ List.replicate 11 (.run 1 true) ++
        List.replicate 11 (.run 2 true))).map (fun s => s.frames.map Frame.pc) =
      some [.done (some 0), .done (some 0), .done (some 0)] by decide)
  exact ⟨s, hs, hpc, lending_exclusive oneBook_booted _ (by decide) hs⟩

/-- Two `borrow_book` calls test the flag before either replaces the book, and both return 0. -/
theorem borrowed_twice : ∃ as s, Booted oneBook [0] ∧
    exec (Sys.step ⟨false⟩) (Sys.boot oneBook [.borrowBook 0 true, .borrowBook 0 true]) as = some s ∧
    s.frames.map Frame.pc = [.done (some 0), .done (some 0)] ∧ ¬ ExclusiveLending s := by
  obtain ⟨s, hs, hend⟩ := Option.map_eq_some_iff.mp (show (exec (Sys.step ⟨false⟩)
      (Sys.boot oneBook [.borrowBook 0 true, .borrowBook 0 true])
      (List.replicate 6 (.run 0 true) ++ List.replicate 6 (.run 1 true) ++
        List.replicate 5 (.run 0 true) ++ List.replicate 5 (.run 1 true))).map
      (fun s => (s.frames.map Frame.pc, s.hist)) =
      some ([.done (some 0), .done (some 0)], [.retired 1 0, .replaced 1 .borrow 0 0,
        .retired 0 0, .replaced 0 .borrow 0 0]) by decide)
  obtain ⟨hpc, hhist⟩ := Prod.mk.inj hend
  refine ⟨_, s, oneBook_booted, hs, hpc, fun h => ?_⟩
  obtain ⟨c, b, -, -, -, -, -, hm, -⟩ := h.between [] [.retired 0 0] [.retired 1 0] 0 1 0 0 0 hhist
  simp at hm

end KernelTrg.Books
