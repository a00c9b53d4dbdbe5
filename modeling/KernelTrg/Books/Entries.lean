import KernelTrg.Books.Lookups
import KernelTrg.Books.Refinement

/-!
# The catalogue of a concurrent run

What the list shows in a state of the machine, as an abstract catalogue. A step that
links a new book, a copy, or takes a book off is the abstract operation of its call on
that catalogue, where the ids of the listed books differ; no other step changes it.
-/

namespace KernelTrg.Books

open LinkRing Runs

def Book.toEntry (v : Book) : Entry := ⟨v.id, v.name, v.author, v.borrow ≠ 0⟩

def Sys.entries (s : Sys) : Catalogue := s.mem.catalogue.map Book.toEntry

/-- The abstract effect and result of a call; `alloc` is whether a `kzalloc` in it succeeds. -/
def Op.apply (alloc : Bool) (c : Catalogue) : Op → Catalogue × Option Int
  | .addBook id name author =>
      (c.add ⟨id, strncpy nameSize name, strncpy nameSize author, false⟩ alloc, none)
  | .updateBook u id _ => ((c.switch u.lends id alloc).1, some (c.switch u.lends id alloc).2)
  | .deleteBook id _ => (c.delete id, none)
  | .isBorrowedBook id => (c, some (c.isBorrowed id))
  | .printBook _ => (c, none)

def Pc.committed : Pc → Bool
  | .unlock _ | .addUnlock => true
  | _ => false

def Pc.links : Pc → Bool
  | .addLink _ => true
  | _ => false

/-- No listed book has the id of a book that is about to be linked. -/
def AddsNew (s : Sys) (a : Action) : Prop :=
  ∀ f ∈ s.stepping a, f.pc.links = true → ∀ v ∈ s.mem.catalogue, v.id ≠ f.op.id

instance (s : Sys) (a : Action) : Decidable (AddsNew s a) :=
  inferInstanceAs (Decidable (∀ f ∈ s.stepping a, _ → _))

/-- The listed books have different ids, and each a flag of 0 or 1. -/
structure Shelf (m : Mem) (xs : List Addr) : Prop where
  ids : (xs.map fun b => (m.book b).id).Nodup
  flags : ∀ b ∈ xs, (m.book b).borrow = 0 ∨ (m.book b).borrow = 1

def Filled (m : Mem) (f : Frame) : Prop :=
  ∀ b id name author, f.pc = .addLock b ∨ f.pc = .addLink b → f.op = .addBook id name author →
    m.book b = ⟨id, strncpy nameSize name, strncpy nameSize author, 0⟩

structure Shelved (s : Sys) (xs : List Addr) : Prop where
  shelf : Shelf s.mem xs
  filled : ∀ (c : Nat) (f : Frame), s.frames[c]? = some f → Filled s.mem f

variable {cfg : Config} {s s' t : Sys} {a : Action} {xs xs' : List Addr}
  {ut ut' : Addr → Option Nat} {c : Nat} {f f' g : Frame} {alloc : Bool} {b x : Addr} {i : Int}
  {v : Book} {m : Mem}

/-! ## Listed books and their entries -/

theorem Core.entries_eq (h : Core s xs ut) :
    s.entries = xs.map fun b => (s.mem.book b).toEntry := by
  rw [Sys.entries, h.catalogue_eq, List.map_map]
  rfl

theorem Shelf.ids_ne {as bs : List Addr} (h : Shelf m (as ++ b :: bs)) :
    ∀ x ∈ as, (m.book x).id ≠ (m.book b).id := by
  have hids := h.ids
  rw [List.map_append, List.map_cons, List.nodup_append] at hids
  intro x hx
  exact hids.2.2 _ (List.mem_map_of_mem hx) _ List.mem_cons_self

theorem mem_entries {as : List Addr} {e : Entry}
    (he : e ∈ as.map fun b => (m.book b).toEntry) : ∃ x ∈ as, e.id = (m.book x).id := by
  rcases List.mem_map.mp he with ⟨x, hx, rfl⟩
  exact ⟨x, hx, rfl⟩

theorem Shelf.front_ne {as bs : List Addr} (h : Shelf m (as ++ b :: bs)) (hid : (m.book b).id = i) :
    ∀ e ∈ as.map fun b => (m.book b).toEntry, e.id ≠ i := by
  intro e he heq
  rcases mem_entries he with ⟨x, hx, hex⟩
  exact h.ids_ne x hx (hex.symm.trans (heq.trans hid.symm))

theorem findFirst_of_lists (h : Core s xs ut) (hshelf : Shelf s.mem xs) (hv : s.Lists v) :
    s.entries.findFirst v.id = some v.toEntry := by
  rw [Sys.Lists, h.catalogue_eq] at hv
  rcases List.mem_map.mp hv with ⟨b, hb, rfl⟩
  rcases List.append_of_mem hb with ⟨as, bs, rfl⟩
  rw [h.entries_eq, List.map_append, List.map_cons]
  exact Catalogue.findFirst_split (hshelf.front_ne rfl) rfl

theorem findFirst_of_lacks (hi : s.Lacks i) : s.entries.findFirst i = none := by
  apply Catalogue.findFirst_none
  intro e he
  rcases List.mem_map.mp he with ⟨v, hv, rfl⟩
  exact hi v hv

/-! ## A new book is as its call wants it -/

theorem init_filled (h : s.frameStep cfg c f alloc = some t) (hpc : f.pc = .init b) {id : Int}
    {name author : List UInt8} (hop : f.op = .addBook id name author) :
    t.mem.book b = ⟨id, strncpy nameSize name, strncpy nameSize author, 0⟩ := by
  unfold Sys.frameStep at h
  simp only [hpc, hop, Option.some.injEq] at h
  rw [← h]
  exact Function.update_self ..

theorem Filled.of_pc (h₁ : ∀ b, f.pc ≠ .addLock b) (h₂ : ∀ b, f.pc ≠ .addLink b) : Filled m f := by
  intro b id name author hpc
  rcases hpc with hpc | hpc
  · exact absurd hpc (h₁ b)
  · exact absurd hpc (h₂ b)

theorem Local.filled (hl : Local s f f') : Filled m f' := by
  cases hl with
  | hit b hpc hid => apply Filled.of_pc <;> intro x <;> cases f.op <;> exact nofun
  | _ => exact .of_pc nofun nofun

theorem Filled.own (h : Filled s.mem f) (ht : s.frameStep cfg c f alloc = some t)
    (hf : s.frames[c]? = some f) (hg : t.frames[c]? = some g) : Filled t.mem g := by
  cases frameStep_trans ht with
  | quiet f' hl ha =>
      rw [eq_of_getElem?_set hf hg]
      exact hl.filled
  | acquire pc hfree hpc =>
      rw [eq_of_getElem?_set hf hg]
      rcases hpc with ⟨-, -, rfl⟩ | ⟨b, newB, -, rfl⟩ | ⟨b, hpc, rfl⟩
      · exact .of_pc nofun nofun
      · exact .of_pc nofun nofun
      · intro x id name author hx hop
        rcases hx with hx | hx
        · cases hx
        · cases hx
          exact h b id name author (.inl hpc) hop
  | release pc hpc =>
      rw [eq_of_getElem?_set hf hg]
      rcases hpc with ⟨b, -, rfl⟩ | ⟨-, rfl⟩ | ⟨-, -, rfl⟩
      · apply Filled.of_pc <;> intro x <;> cases f.op <;> exact nofun
      · exact .of_pc nofun nofun
      · exact .of_pc nofun nofun
  | alloc pc ha hpc =>
      rw [eq_of_getElem?_set hf hg]
      rcases hpc with ⟨id, name, author, -, -, rfl⟩ | ⟨b, -, rfl⟩
      · exact .of_pc nofun nofun
      · exact .of_pc nofun nofun
  | init b v hpc hv =>
      rw [eq_of_getElem?_set hf hg]
      intro x id name author hx hop
      rcases hx with hx | hx
      · cases hx
        exact init_filled ht hpc hop
      · cases hx
  | _ =>
      rw [eq_of_getElem?_set hf hg]
      exact .of_pc nofun nofun

theorem Filled.step (h : ∀ (c : Nat) (f : Frame), s.frames[c]? = some f → Filled s.mem f)
    (hcore : Core s xs ut) (htyped : Typed s) (hs : s.step cfg a = some s')
    (hg : s'.frames[c]? = some g) : Filled s'.mem g := by
  rcases step_frame htyped hs hg with ⟨op, -, -, rfl⟩ | ⟨al, f, t, rfl, hf, ht, rfl⟩ | ⟨hf, hother⟩
  · exact .of_pc nofun nofun
  · exact Filled.own (t := t) (h c f hf) ht hf hg
  · intro b id name author hpc hop
    have hfresh : g.pc.fresh = some b := by
      rcases hpc with hpc | hpc <;> rw [hpc] <;> rfl
    have hbook : s'.mem.book b = s.mem.book b := by
      rcases step_cases hs with ⟨op, -, rfl⟩ | ⟨k, al, f, t, rfl, hk, ht, rfl⟩ |
        ⟨i, x, n, -, -, -, rfl⟩
      · rfl
      · have hne : c ≠ k := fun heq => hother al (by rw [heq])
        exact hcore.book_fresh (t := t) hk ht hne hf hfresh
      · rfl
    rw [hbook]
    exact h c g hf b id name author hpc hop

/-! ## What a step does to the entries -/

structure Commits (s s' : Sys) (a : Action) (c : Nat) (f : Frame) : Prop where
  action : ∃ alloc, a = .run c alloc
  frame : s.frames[c]? = some f
  committed : ∃ g, s'.frames[c]? = some g ∧ g.pc.committed = true
  entries_eq : s'.entries = (f.op.apply true s.entries).1
  result_eq : (f.op.apply true s.entries).2 = f.op.success

/-- The steps after which a call has changed the list. -/
theorem Trans.commits (ht : Trans cfg s c f alloc t) (hf : s.frames[c]? = some f)
    (hg : t.frames[c]? = some g) (hc : g.pc.committed = true) :
    (∃ e, t.hist = e :: s.hist ∧ ∀ k b, e ≠ .retired k b) ∨
      ∃ b, f.pc = .addLink b ∧ t.mem.links = s.mem.links.insert (.node b) .head := by
  cases ht with
  | quiet f' hl ha =>
      rw [eq_of_getElem?_set hf hg] at hc
      cases hl with
      | hit b hpc hid => cases hop : f.op <;> simp [Sys.hit, hop, Pc.committed] at hc
      | _ => cases hc
  | acquire pc hfree hpc =>
      rw [eq_of_getElem?_set hf hg] at hc
      rcases hpc with ⟨-, -, rfl⟩ | ⟨b, newB, -, rfl⟩ | ⟨b, -, rfl⟩ <;> cases hc
  | release pc hpc =>
      rw [eq_of_getElem?_set hf hg] at hc
      rcases hpc with ⟨b, -, rfl⟩ | ⟨-, rfl⟩ | ⟨-, -, rfl⟩
      · cases hdel : f.op.deletes <;> simp [hdel, Pc.committed] at hc
      · cases hc
      · cases hc
  | alloc pc ha hpc =>
      rw [eq_of_getElem?_set hf hg] at hc
      rcases hpc with ⟨id, name, author, -, -, rfl⟩ | ⟨b, -, rfl⟩ <;> cases hc
  | replace b newB u id async hpc hop hp | del b hpc hp =>
      refine .inl ⟨_, rfl, ?_⟩
      intro k x heq
      cases heq
  | add b hpc => exact .inr ⟨b, hpc, rfl⟩
  | _ =>
      rw [eq_of_getElem?_set hf hg] at hc
      cases hc

/-- A call that has changed the list has relisted a book. -/
theorem not_committed_of_same (hcore : Core s xs ut) (hcore' : Core s' xs ut)
    (hs : s.step cfg (.run c alloc) = some s')
    (hhist : s'.hist = s.hist ∨ ∃ c b, s'.hist = .retired c b :: s.hist)
    (hg : s'.frames[c]? = some g) : g.pc.committed = false := by
  rcases step_cases hs with ⟨op, heq, -⟩ | ⟨k, al, f, t, heq, hf, ht, rfl⟩ | ⟨i, b, n, heq, -⟩
  · cases heq
  · cases heq
    by_contra hc
    rcases ht.commits (t := t) hf hg (by simpa using hc) with ⟨e, he, hne⟩ | ⟨b, hpc, hlinks⟩
    · have hhist' : e :: s.hist = s.hist ∨ ∃ k b, e :: s.hist = .retired k b :: s.hist := by
        rw [← he]
        exact hhist
      rcases hhist' with hsame | ⟨k, b, hretired⟩
      · exact List.cons_ne_self _ _ hsame
      · exact hne k b (List.cons.inj hretired).1
    · obtain ⟨-, hb, -⟩ := (hcore.frame c f hf).fresh b (by rw [hpc]; rfl)
      have hhead := hcore'.ring.next_head
      have hinsert : t.tick.mem.links.next .head = .node b := by
        change t.mem.links.next .head = .node b
        rw [hlinks]
        exact (hcore.ring.insert hb).next_head
      rw [hinsert] at hhead
      cases xs with
      | nil => cases hhead
      | cons x xs =>
          cases hhead
          exact hb List.mem_cons_self
  · cases heq

theorem eq_entries_of_same (hcore : Core s xs ut) (hcore' : Core s' xs ut)
    (hs : s.step cfg a = some s') : s'.entries = s.entries := by
  rw [hcore.entries_eq, hcore'.entries_eq]
  apply List.map_congr_left
  intro b hb
  rw [hcore.book_step hs (.inl hb)]

theorem Update.refuses_toEntry {u : Update} (h : u.refuses v.borrow = false) :
    v.toEntry.borrowed = !u.lends := by
  cases u <;> simp_all [Update.refuses, Update.lends, Book.toEntry]

theorem Update.flag_toEntry (u : Update) (v : Book) :
    ({ v with borrow := u.flag } : Book).toEntry = { v.toEntry with borrowed := u.lends } := by
  cases u <;> rfl

theorem Op.adds_iff {op : Op} : op.adds = true ↔ ∃ id name author, op = .addBook id name author := by
  cases op <;> simp [Op.adds]

theorem Op.deletes_iff {op : Op} : op.deletes = true ↔ ∃ id async, op = .deleteBook id async := by
  cases op <;> simp [Op.deletes]

theorem Shelf.switch_split {as bs : List Addr} {u : Update} (h : Shelf m (as ++ b :: bs))
    (hid : (m.book b).id = i) (hpassed : u.refuses (m.book b).borrow = false) :
    Catalogue.switch u.lends ((as ++ b :: bs).map fun b => (m.book b).toEntry) i true =
      (as.map (fun b => (m.book b).toEntry) ++
        { (m.book b).toEntry with borrowed := u.lends } ::
          bs.map fun b => (m.book b).toEntry, 0) := by
  have hfront := h.front_ne hid
  have hfirst : (m.book b).toEntry.id = i := hid
  rw [List.map_append, List.map_cons, Catalogue.switch, Catalogue.findFirst_split hfront hfirst,
    Catalogue.setFirst_split hfront hfirst]
  exact if_pos ⟨Update.refuses_toEntry hpassed, rfl⟩

/-- A step is the abstract operation of its call, or it leaves the entries alone. -/
theorem Relists.entries (hr : Relists s a s' xs ut xs' ut') (hsound : Sound s xs ut)
    (hcore' : Core s' xs' ut') (hshelved : Shelved s xs) (hs : s.step cfg a = some s') :
    (∃ c f, Commits s s' a c f) ∨ s'.entries = s.entries ∧
      ∀ c alloc g, a = .run c alloc → s'.frames[c]? = some g → g.pc.committed = false := by
  have hcore := hsound.core
  have hold := hcore.entries_eq
  have hnew := hcore'.entries_eq
  have hset : ∀ {c : Nat} {f g : Frame}, s.frames[c]? = some f → s'.frames = s.frames.set c g →
      s'.frames[c]? = some g := by
    intro c f g hf hframes
    rw [hframes, List.getElem?_set_self (List.getElem?_eq_some_iff.mp hf).1]
  cases hr with
  | same hnext hentry hhist =>
      refine .inr ⟨eq_entries_of_same hcore hcore' hs, ?_⟩
      intro c alloc g ha hg
      subst ha
      exact not_committed_of_same hcore hcore' hs hhist hg
  | added c alloc f b ha hf hpc hframes hlinks hbook hentry hhist =>
      have hadds : f.op.adds = true := by
        simpa [hpc, Pc.suits] using (hsound.typed f (List.mem_of_getElem? hf)).suits
      rcases Op.adds_iff.mp hadds with ⟨id, name, author, hop⟩
      have hfilled := hshelved.filled c f hf b id name author (.inr hpc) hop
      refine .inl ⟨c, f, ⟨alloc, ha⟩, hf, ⟨_, hset hf hframes, rfl⟩, ?_, by rw [hop]; rfl⟩
      rw [hnew, hold, hbook, hop, List.map_cons, hfilled]
      rfl
  | replaced c alloc f b newB u id async ha hf hpc hop hb hframes hlinks hbook hentry hhist =>
      have hchecked := hsound.checked c f hf
      have hfound := hchecked.found b (by rw [hpc]; rfl)
      have hpassed := hchecked.passed b u id async (by rw [hpc]; rfl) hop
      have hcopy := hchecked.copied b newB u id async (by rw [hpc]; rfl) hop
      have hid : (s.mem.book b).id = id := by
        rw [hfound, hop]
        rfl
      rcases List.append_of_mem hb with ⟨as, bs, rfl⟩
      have hswitch := hshelved.shelf.switch_split hid hpassed
      rw [← hold] at hswitch
      refine .inl ⟨c, f, ⟨alloc, ha⟩, hf, ⟨_, hset hf hframes, rfl⟩, ?_, ?_⟩
      · rw [hnew, hbook, rename_split hcore.ring.nodup, List.map_append, List.map_cons, hcopy,
          Update.flag_toEntry, hop, Op.apply, hswitch]
      · rw [hop, Op.apply, hswitch]
        rfl
  | deleted c alloc f b ha hf hpc hb hframes hlinks hbook hentry hhist =>
      have hid := (hsound.checked c f hf).found b (by rw [hpc]; rfl)
      have hdel : f.op.deletes = true := by
        simpa [hpc, Pc.suits] using (hsound.typed f (List.mem_of_getElem? hf)).suits
      rcases Op.deletes_iff.mp hdel with ⟨id, async, hop⟩
      rw [hop] at hid
      rcases List.append_of_mem hb with ⟨as, bs, rfl⟩
      have hfirst : (s.mem.book b).toEntry.id = id := hid
      refine .inl ⟨c, f, ⟨alloc, ha⟩, hf, ⟨_, hset hf hframes, rfl⟩, ?_, by rw [hop]; rfl⟩
      rw [hnew, hold, hbook, filter_split hcore.ring.nodup, hop, Op.apply, List.map_append,
        List.map_append, List.map_cons, Catalogue.delete_split (hshelved.shelf.front_ne hfirst) hfirst]

/-! ## The shelf along a run -/

/-- The books of a list stay what they were in its part that a step leaves. -/
theorem Shelf.sublist {m' : Mem} (h : Shelf m xs) (hsub : xs'.Sublist xs)
    (hbook : ∀ b ∈ xs', m'.book b = m.book b) : Shelf m' xs' where
  ids := by
    have hids : xs'.map (fun b => (m'.book b).id) = xs'.map fun b => (m.book b).id :=
      List.map_congr_left fun b hb => by rw [hbook b hb]
    rw [hids]
    exact h.ids.sublist (hsub.map _)
  flags := by
    intro b hb
    rw [hbook b hb]
    exact h.flags b (hsub.subset hb)

theorem Shelved.step (h : Shelved s xs) (hsound : Sound s xs ut) (hg : AddsNew s a)
    (hs : s.step cfg a = some s') (hr : Relists s a s' xs ut xs' ut') : Shelved s' xs' := by
  have hcore := hsound.core
  refine ⟨?_, fun c f hf => Filled.step h.filled hcore hsound.typed hs hf⟩
  cases hr with
  | same hnext hentry hhist =>
      exact h.shelf.sublist (List.Sublist.refl _) fun b hb => hcore.book_step hs (.inl hb)
  | added c alloc f b ha hf hpc hframes hlinks hbook hentry hhist =>
      have hadds : f.op.adds = true := by
        simpa [hpc, Pc.suits] using (hsound.typed f (List.mem_of_getElem? hf)).suits
      rcases Op.adds_iff.mp hadds with ⟨id, name, author, hop⟩
      have hfilled := h.filled c f hf b id name author (.inr hpc) hop
      subst ha
      have hlacks := hg f hf (by rw [hpc]; rfl)
      rw [hcore.catalogue_eq] at hlacks
      rw [hop] at hlacks
      constructor
      · rw [hbook, List.map_cons, List.nodup_cons]
        refine ⟨?_, h.shelf.ids⟩
        intro hmem
        rcases List.mem_map.mp hmem with ⟨x, hx, hid⟩
        rw [hfilled] at hid
        exact hlacks _ (List.mem_map_of_mem hx) hid
      · intro x hx
        rw [hbook]
        rcases List.mem_cons.mp hx with rfl | hx
        · exact .inl (by rw [hfilled])
        · exact h.shelf.flags x hx
  | replaced c alloc f b newB u id async ha hf hpc hop hb hframes hlinks hbook hentry hhist =>
      have hcopy := (hsound.checked c f hf).copied b newB u id async (by rw [hpc]; rfl) hop
      constructor
      · have hids : (rename b newB xs).map (fun b => (s'.mem.book b).id) =
            xs.map fun b => (s.mem.book b).id := by
          rw [rename, List.map_map, hbook]
          apply List.map_congr_left
          intro x hx
          by_cases hxb : x = b
          · simp [hxb, hcopy]
          · simp [hxb]
        rw [hids]
        exact h.shelf.ids
      · intro x hx
        rw [hbook]
        rcases (mem_rename hb).mp hx with rfl | ⟨hx, -⟩
        · rw [hcopy]
          cases u
          · exact .inr rfl
          · exact .inl rfl
        · exact h.shelf.flags x hx
  | deleted c alloc f b ha hf hpc hb hframes hlinks hbook hentry hhist =>
      exact h.shelf.sublist List.filter_sublist fun x _ => by rw [hbook]

theorem Shelf.shelved (h : Shelf m xs) (ops : List Op) : Shelved (Sys.boot m ops) xs := by
  refine ⟨h, ?_⟩
  intro c f hf
  rcases List.mem_map.mp (List.mem_of_getElem? hf) with ⟨op, -, rfl⟩
  exact .of_pc nofun nofun

end KernelTrg.Books
