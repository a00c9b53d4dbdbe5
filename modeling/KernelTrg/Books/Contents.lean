import KernelTrg.Books.Preservation

/-!
# What a call knows about the book it found

An object that was ever on the list is written no more, so what a call read from it
in its search still holds when the call comes back to it. `Checked` is that
knowledge, step by step through a call.
-/

namespace KernelTrg.Books

open LinkRing

variable {cfg : Config} {s s' t : Sys} {a : Action} {xs xs' : List Addr}
  {ut ut' : Addr → Option Nat} {c c' : Nat} {f f' g : Frame} {alloc : Bool} {x b n : Addr}

/-! ## Published objects -/

theorem Relists.published (h : Relists s a s' xs ut xs' ut') (hx : Published xs ut x) :
    Published xs' ut' x := by
  cases h with
  | same hnext hentry hhist => exact hx
  | added c alloc f b ha hf hpc hframes hlinks hbook hentry hhist => exact hx.imp (List.mem_cons_of_mem _) id
  | replaced c alloc f b newB u id async ha hf hpc hop hb hframes hlinks hbook hentry hhist =>
      by_cases hxb : x = b
      · exact .inr ⟨s.clock, by rw [hxb, Function.update_self]⟩
      · unfold Published
        rw [Function.update_of_ne hxb, mem_rename hb]
        exact hx.imp (fun hm => .inr ⟨hm, hxb⟩) (fun ht => ht)
  | deleted c alloc f b ha hf hpc hb hframes hlinks hbook hentry hhist =>
      by_cases hxb : x = b
      · exact .inr ⟨s.clock, by rw [hxb, Function.update_self]⟩
      · unfold Published
        rw [Function.update_of_ne hxb]
        exact hx.imp (fun hm => by simpa using ⟨hm, hxb⟩) id

/-- A step writes to the object it allocates or to the one its call holds privately. -/
theorem Trans.book_eq (ht : Trans cfg s c f alloc t) (hx : x ≠ s.mem.brk)
    (hn : f.pc.fresh ≠ some x) : t.mem.book x = s.mem.book x := by
  cases ht with
  | alloc pc ha hpc => exact Function.update_of_ne hx ..
  | copy b newB u id async hpc hop =>
      have hne : x ≠ newB := fun e => hn (by rw [hpc, e]; rfl)
      exact ((AgreeOff.memcpy s.mem newB b).trans (AgreeOff.setBook ..)).book x hne
  | init b v hpc hv =>
      have hne : x ≠ b := fun e => hn (by rw [hpc, e]; rfl)
      exact Function.update_of_ne hne ..
  | _ => rfl

namespace Core

theorem book_published (h : Core s xs ut) (hf : s.frames[c]? = some f)
    (ht : Trans cfg s c f alloc t) (hx : Published xs ut x) : t.mem.book x = s.mem.book x :=
  ht.book_eq (Nat.ne_of_lt (h.lt_brk hx)) fun hn => h.fresh_unpublished hf hn hx

theorem book_step (h : Core s xs ut) (hs : s.step cfg a = some s') (hx : Published xs ut x) :
    s'.mem.book x = s.mem.book x := by
  rcases step_cases hs with ⟨op, -, rfl⟩ | ⟨c, alloc, f, t, -, hf, ht, rfl⟩ | ⟨i, b, t, -, -, -, rfl⟩
  · rfl
  · exact h.book_published (t := t) hf ht hx
  · rfl

/-- A private object is written by its own call only. -/
theorem book_fresh (h : Core s xs ut) (hf : s.frames[c]? = some f)
    (ht : Trans cfg s c f alloc t) (hne : c' ≠ c) (hg : s.frames[c']? = some g)
    (hn : g.pc.fresh = some n) : t.mem.book n = s.mem.book n :=
  ht.book_eq (Nat.ne_of_lt ((h.frame c' g hg).fresh n hn).1)
    fun hn' => hne (h.apart c' c g f n hg hf hn hn')

end Core

/-! ## Search results -/

/-- The book with the id of the call, once the search has met it. -/
def Pc.target : Pc → Option Addr
  | .test b | .alloc b | .copy b _ | .lock b _ | .replace b _ | .del b | .found b | .print b => some b
  | _ => none

/-- The book whose flag an updater has tested. -/
def Pc.chosen : Pc → Option Addr
  | .alloc b | .copy b _ | .lock b _ | .replace b _ => some b
  | _ => none

def Pc.copied : Pc → Option (Addr × Addr)
  | .lock b n | .replace b n => some (b, n)
  | _ => none

structure Checked (m : Mem) (f : Frame) : Prop where
  found : ∀ b, f.pc.target = some b → (m.book b).id = f.op.id
  passed : ∀ b u id async, f.pc.chosen = some b → f.op = .updateBook u id async →
    u.refuses (m.book b).borrow = false
  copied : ∀ b n u id async, f.pc.copied = some (b, n) → f.op = .updateBook u id async →
    m.book n = { m.book b with borrow := u.flag }

theorem Pc.reads_of_target {pc : Pc} (h : pc.target = some b) : b ∈ pc.reads := by
  cases pc <;> simp_all [Pc.target, Pc.reads]

theorem Pc.target_of_chosen {pc : Pc} (h : pc.chosen = some b) : pc.target = some b := by
  cases pc <;> simp_all [Pc.target, Pc.chosen]

theorem Pc.of_copied {pc : Pc} (h : pc.copied = some (b, n)) :
    pc.chosen = some b ∧ pc.fresh = some n := by
  cases pc <;> simp_all [Pc.copied, Pc.chosen, Pc.fresh]

namespace Checked

variable {m m' : Mem}

theorem idle (ht : f.pc.target = none) : Checked m f := by
  have hch : f.pc.chosen = none := by
    cases hb : f.pc.chosen with
    | none => rfl
    | some b => rw [Pc.target_of_chosen hb] at ht; cases ht
  have hcp : f.pc.copied = none := by
    cases hb : f.pc.copied with
    | none => rfl
    | some p => rw [(Pc.of_copied (b := p.1) (n := p.2) hb).1] at hch; cases hch
  exact ⟨by simp [ht], by simp [hch], by simp [hcp]⟩

theorem mono (h : Checked m f) (hb : ∀ b ∈ f.pc.reads, m'.book b = m.book b)
    (hn : ∀ n, f.pc.fresh = some n → m'.book n = m.book n) : Checked m' f where
  found := by
    intro b ht
    rw [hb b (Pc.reads_of_target ht)]
    exact h.found b ht
  passed := by
    intro b u id async hc hop
    rw [hb b (Pc.reads_of_target (Pc.target_of_chosen hc))]
    exact h.passed b u id async hc hop
  copied := by
    intro b n u id async hc hop
    obtain ⟨hch, hfr⟩ := Pc.of_copied hc
    rw [hb b (Pc.reads_of_target (Pc.target_of_chosen hch)), hn n hfr]
    exact h.copied b n u id async hc hop

theorem advance (h : Checked m f) (hop : f'.op = f.op)
    (ht : ∀ b, f'.pc.target = some b → f.pc.target = some b)
    (hc : ∀ b, f'.pc.chosen = some b → f.pc.chosen = some b)
    (hcp : ∀ p, f'.pc.copied = some p → f.pc.copied = some p) : Checked m f' where
  found := fun b hb => hop ▸ h.found b (ht b hb)
  passed := fun b u id async hb ho => h.passed b u id async (hc b hb) (hop ▸ ho)
  copied := fun b n u id async hb ho => h.copied b n u id async (hcp _ hb) (hop ▸ ho)

theorem of_local (h : Checked s.mem f) (hl : Local s f f') : Checked s.mem f' := by
  cases hl with
  | hit b hpc hid =>
      refine ⟨?_, ?_, ?_⟩
      · intro x hx
        have hxb : x = b := by cases hop : f.op <;> simp_all [Sys.hit, Pc.target]
        rw [hxb, hid]
      · intro x u id async hx hop
        have hop' : f.op = .updateBook u id async := hop
        rw [hop'] at hx
        cases hx
      · intro x n u id async hx hop
        have hop' : f.op = .updateBook u id async := hop
        rw [hop'] at hx
        cases hx
  | accept b u id async hpc hop hr =>
      refine ⟨?_, ?_, by simp [Pc.copied]⟩
      · intro x hx
        exact h.found x (by simpa [hpc, Pc.target] using hx)
      · intro x u' id' async' hx hop'
        cases hx
        cases hop.symm.trans hop'
        exact hr
  | _ => exact idle rfl

end Checked

def AllChecked (s : Sys) : Prop := ∀ (c : Nat) (f : Frame), s.frames[c]? = some f → Checked s.mem f

theorem AllChecked.boot (m : Mem) (ops : List Op) : AllChecked (Sys.boot m ops) := by
  intro c f hf
  obtain ⟨op, -, rfl⟩ := List.mem_map.mp (List.mem_of_getElem? hf)
  exact .idle rfl

theorem Core.checked_trans (h : Core s xs ut) (hf : s.frames[c]? = some f) (hk : Checked s.mem f)
    (ht : Trans cfg s c f alloc t) (hf' : t.frames[c]? = some f') : Checked t.mem f' := by
  have hfr := h.frame c f hf
  have hbook : ∀ b ∈ f.pc.reads, t.mem.book b = s.mem.book b := fun b hb =>
    h.book_published hf ht (hfr.reads b hb).published
  cases ht with
  | quiet g hl ha =>
      rw [eq_of_getElem?_set hf hf']
      exact hk.of_local hl
  | acquire pc hfree hpc =>
      rw [eq_of_getElem?_set hf hf']
      rcases hpc with ⟨-, -, rfl⟩ | ⟨b, newB, hpc, rfl⟩ | ⟨b, -, rfl⟩
      · exact .idle rfl
      · exact hk.advance rfl (by simp [hpc, Pc.target]) (by simp [hpc, Pc.chosen])
          (by simp [hpc, Pc.copied])
      · exact .idle rfl
  | release pc hpc =>
      rw [eq_of_getElem?_set hf hf']
      rcases hpc with ⟨b, -, rfl⟩ | ⟨-, rfl⟩ | ⟨-, -, rfl⟩
      · refine .idle ?_
        change Pc.target (if f.op.deletes = true then .reclaim b else .leave b) = none
        split <;> rfl
      · exact .idle rfl
      · exact .idle rfl
  | alloc pc ha hpc =>
      rw [eq_of_getElem?_set hf hf']
      rcases hpc with ⟨id, name, author, -, -, rfl⟩ | ⟨b, hpc, rfl⟩
      · exact .idle rfl
      · have hb : s.mem.kzalloc.book b = s.mem.book b := hbook b (by simp [hpc, Pc.reads])
        refine ⟨?_, ?_, by simp [Pc.copied]⟩
        · intro x hx
          cases hx
          change (s.mem.kzalloc.book b).id = f.op.id
          rw [hb]
          exact hk.found b (by simp [hpc, Pc.target])
        · intro x u id async hx hop
          cases hx
          change u.refuses (s.mem.kzalloc.book b).borrow = false
          rw [hb]
          exact hk.passed b u id async (by simp [hpc, Pc.chosen]) hop
  | copy b newB u id async hpc hop =>
      rw [eq_of_getElem?_set hf hf']
      have hb := hbook b (by simp [hpc, Pc.reads])
      change ((s.mem.memcpy newB b).setBorrow newB u.flag).book b = s.mem.book b at hb
      refine ⟨?_, ?_, ?_⟩
      · intro x hx
        cases hx
        change (((s.mem.memcpy newB b).setBorrow newB u.flag).book b).id = f.op.id
        rw [hb]
        exact hk.found b (by simp [hpc, Pc.target])
      · intro x u' id' async' hx hop'
        cases hx
        change u'.refuses (((s.mem.memcpy newB b).setBorrow newB u.flag).book b).borrow = false
        rw [hb]
        exact hk.passed b u' id' async' (by simp [hpc, Pc.chosen]) hop'
      · intro x n u' id' async' hx hop'
        cases hx
        cases hop.symm.trans hop'
        change ((s.mem.memcpy newB b).setBorrow newB u.flag).book newB =
          { ((s.mem.memcpy newB b).setBorrow newB u.flag).book b with borrow := u.flag }
        rw [hb]
        simp [Mem.setBorrow, Mem.setBook, Mem.memcpy]
  | _ =>
      rw [eq_of_getElem?_set hf hf']
      exact .idle rfl

theorem AllChecked.step (hk : AllChecked s) (h : Core s xs ut) (htyped : Typed s)
    (hs : s.step cfg a = some s') : AllChecked s' := by
  intro c' g hg
  rcases step_cases hs with ⟨op, -, rfl⟩ | ⟨c, alloc, f, t, -, hf, ht, rfl⟩ | ⟨i, b, t, -, -, -, rfl⟩
  · rcases getElem?_snoc_cases hg with hg | rfl
    · exact hk c' g hg
    · exact .idle rfl
  · by_cases hc : c' = c
    · subst hc
      exact h.checked_trans (t := t) hf (hk c' f hf) ht hg
    · obtain ⟨f', hframes, -⟩ := ht.fits (htyped f (List.mem_of_getElem? hf))
      have hk' : s.frames[c']? = some g := by
        simpa [Sys.tick, hframes, List.getElem?_set_ne (Ne.symm hc)] using hg
      exact (hk c' g hk').mono
        (fun b hb => h.book_published (t := t) hf ht ((h.frame c' g hk').reads b hb).published)
        (fun n hn => h.book_fresh (t := t) hf ht hc hk' hn)
  · exact (hk c' g hg).mono (fun _ _ => rfl) (fun _ _ => rfl)

end KernelTrg.Books
