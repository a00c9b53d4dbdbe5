import KernelTrg.Lib.Traversal
import KernelTrg.Books.Lending

/-!
# A search among updates

The cursor of a search is the pointer it goes on from. While others update the list,
the cursor still leads to a book with the id of the call, unless at some moment no
listed book has that id. That rests on `delete_book` taking off the first book with its
id: a second one, behind a cursor that has passed the first, would be missed.
-/

namespace KernelTrg.Books

open LinkRing

variable {cfg : Config} {s s' t : Sys} {a : Action} {xs xs' : List Addr}
  {ut ut' : Addr → Option Nat} {c : Nat} {f f' g : Frame} {alloc : Bool} {b x : Addr} {i : Int}
  {p : Ptr Addr}

def Sys.Lists (s : Sys) (v : Book) : Prop := v ∈ s.mem.catalogue

def Sys.Lacks (s : Sys) (i : Int) : Prop := ∀ v ∈ s.mem.catalogue, v.id ≠ i

namespace Core

theorem catalogue_eq (h : Core s xs ut) : s.mem.catalogue = xs.map s.mem.book := by
  rw [Mem.catalogue, onList_eq h.ring fun b hb => (h.linked b hb).1]

theorem lists_of_mem (h : Core s xs ut) (hb : b ∈ xs) : s.Lists (s.mem.book b) := by
  rw [Sys.Lists, h.catalogue_eq]
  exact List.mem_map_of_mem hb

theorem lacks_or (h : Core s xs ut) (i : Int) :
    s.Lacks i ∨ ∃ x ∈ xs, (s.mem.book x).id = i := by
  by_cases hex : ∃ x ∈ xs, (s.mem.book x).id = i
  · exact .inr hex
  · left
    intro v hv hid
    rw [h.catalogue_eq] at hv
    obtain ⟨x, hx, rfl⟩ := List.mem_map.mp hv
    exact hex ⟨x, hx, hid⟩

theorem published_next (h : Core s xs ut) (hx : Published xs ut x)
    (hn : s.mem.links.next (.node x) = .node b) : Published xs ut b := by
  rcases hx with hx | ⟨t, ht⟩
  · have hm := h.ring.next_mem (mem_ring_node.mpr hx)
    rw [hn] at hm
    exact .inl (mem_ring_node.mp hm)
  · rcases (h.gone x t ht).2.2.2 with hh | ⟨y, hy, hcase⟩
    · rw [hn] at hh
      cases hh
    · rw [hn] at hy
      cases hy
      rcases hcase with hm | ⟨t', ht', -⟩
      · exact .inl hm
      · exact .inr ⟨t', ht'⟩

end Core

/-! ## The frame of a call after a step -/

theorem step_frame (htyped : Typed s) (hs : s.step cfg a = some s')
    (hg : s'.frames[c]? = some g) :
    (∃ op, a = .call op ∧ c = s.frames.length ∧ g = Frame.new op) ∨
    (∃ alloc f t, a = .run c alloc ∧ s.frames[c]? = some f ∧ s.frameStep cfg c f alloc = some t ∧
      s' = t.tick) ∨
    s.frames[c]? = some g ∧ ∀ alloc, a ≠ .run c alloc := by
  obtain ⟨t, ht, rfl⟩ := Option.map_eq_some_iff.mp hs
  cases a with
  | call op =>
      cases ht
      change (s.frames ++ [Frame.new op])[c]? = some g at hg
      rw [List.getElem?_append] at hg
      split at hg
      · exact .inr (.inr ⟨hg, fun _ h => by cases h⟩)
      · rename_i hge
        rw [List.getElem?_singleton] at hg
        split at hg
        · cases hg
          exact .inl ⟨op, rfl, by omega, rfl⟩
        · cases hg
  | run k alloc =>
      simp only [Sys.act] at ht
      split at ht
      · rename_i f hf
        by_cases hc : c = k
        · subst hc
          exact .inr (.inl ⟨alloc, f, t, rfl, hf, ht, rfl⟩)
        · obtain ⟨f', hframes, -⟩ := (frameStep_trans ht).fits (htyped f (List.mem_of_getElem? hf))
          have hk : s.frames[c]? = some g := by
            simpa [Sys.tick, hframes, List.getElem?_set_ne (Ne.symm hc)] using hg
          exact .inr (.inr ⟨hk, fun _ h => by cases h; exact hc rfl⟩)
      · cases ht
  | callback i =>
      simp only [Sys.act, Sys.bookReclaimCallback] at ht
      split at ht
      · split at ht
        · cases ht
          exact .inr (.inr ⟨hg, fun _ h => by cases h⟩)
        · cases ht
      · cases ht

/-! ## The cursor -/

/-- The pointer the search of the call goes on from. -/
def Pc.cursor : Pc → Option (Ptr Addr)
  | .walk p => some p
  | .next b | .del b => some (.node b)
  | _ => none

theorem Pc.inside_of_cursor {pc : Pc} (h : pc.cursor = some p) : pc.inside = true := by
  cases pc <;> simp_all [Pc.cursor, Pc.inside]

theorem Pc.reads_of_cursor {pc : Pc} (h : pc.cursor = some (.node b)) : b ∈ pc.reads := by
  cases pc <;> simp_all [Pc.cursor, Pc.reads]

/-- The call comes to its cursor with a load from the list head, from a book without its id, or
had it before. -/
theorem Trans.cursor (ht : Trans cfg s c f alloc t) (hf : s.frames[c]? = some f)
    (hf' : t.frames[c]? = some f') (hp : f'.pc.cursor = some p) :
    t.mem = s.mem ∧ f.pc.inside = true ∧ f'.op = f.op ∧
      (f.pc = .first ∧ p = s.mem.links.next .head ∨ f.pc.cursor = some p ∨
        ∃ b, f.pc = .next b ∧ p = s.mem.links.next (.node b)) := by
  cases ht with
  | quiet f' hl ha =>
      rw [eq_of_getElem?_set hf hf'] at hp ⊢
      cases hl with
      | first hpc =>
          cases hp
          exact ⟨rfl, by simp [hpc, Pc.inside], rfl, .inl ⟨hpc, rfl⟩⟩
      | hit b hpc hid =>
          refine ⟨rfl, by simp [hpc, Pc.inside], rfl, .inr (.inl ?_)⟩
          rw [hpc]
          cases hop : f.op <;> simp_all [Sys.hit, Pc.cursor]
      | miss b hpc hid =>
          cases hp
          exact ⟨rfl, by simp [hpc, Pc.inside], rfl, .inr (.inl (by simp [hpc, Pc.cursor]))⟩
      | next b hpc =>
          cases hp
          exact ⟨rfl, by simp [hpc, Pc.inside], rfl, .inr (.inr ⟨b, hpc, rfl⟩)⟩
      | _ => cases hp
  | acquire pc hfree hpc =>
      rw [eq_of_getElem?_set hf hf'] at hp
      rcases hpc with ⟨-, -, rfl⟩ | ⟨b, newB, -, rfl⟩ | ⟨b, -, rfl⟩ <;> cases hp
  | release pc hpc =>
      rw [eq_of_getElem?_set hf hf'] at hp
      rcases hpc with ⟨b, -, rfl⟩ | ⟨-, rfl⟩ | ⟨-, -, rfl⟩
      · cases hdel : f.op.deletes <;> simp [hdel, Pc.cursor] at hp
      · cases hp
      · cases hp
  | alloc pc ha hpc =>
      rw [eq_of_getElem?_set hf hf'] at hp
      rcases hpc with ⟨id, name, author, -, -, rfl⟩ | ⟨b, -, rfl⟩ <;> cases hp
  | _ =>
      rw [eq_of_getElem?_set hf hf'] at hp
      cases hp

theorem Trans.next (ht : Trans cfg s c f alloc t) (hf : s.frames[c]? = some f)
    (hf' : t.frames[c]? = some f') (hp : f'.pc = .next b) :
    (t.mem.book b).id ≠ f'.op.id := by
  cases ht with
  | quiet f' hl ha =>
      rw [eq_of_getElem?_set hf hf'] at hp ⊢
      cases hl with
      | hit x hpc hid => cases hop : f.op <;> simp [Sys.hit, hop] at hp
      | miss x hpc hid =>
          cases hp
          exact hid
      | _ => cases hp
  | acquire pc hfree hpc =>
      rw [eq_of_getElem?_set hf hf'] at hp
      rcases hpc with ⟨-, -, rfl⟩ | ⟨x, newB, -, rfl⟩ | ⟨x, -, rfl⟩ <;> cases hp
  | release pc hpc =>
      rw [eq_of_getElem?_set hf hf'] at hp
      rcases hpc with ⟨x, -, rfl⟩ | ⟨-, rfl⟩ | ⟨-, -, rfl⟩
      · cases hdel : f.op.deletes <;> simp [hdel] at hp
      · cases hp
      · cases hp
  | alloc pc ha hpc =>
      rw [eq_of_getElem?_set hf hf'] at hp
      rcases hpc with ⟨id, name, author, -, -, rfl⟩ | ⟨x, -, rfl⟩ <;> cases hp
  | _ =>
      rw [eq_of_getElem?_set hf hf'] at hp
      cases hp

/-! ## What a search has passed -/

structure Searching (s : Sys) (xs : List Addr) (f : Frame) : Prop where
  missed : ∀ b, f.pc = .next b → (s.mem.book b).id ≠ f.op.id
  /-- no book before the cursor of `delete_book` has its id -/
  passed : f.op.deletes = true → ∀ p, f.pc.cursor = some p → ∃ as bs, xs = as ++ bs ∧
    p = front bs ∧ ∀ x ∈ as, (s.mem.book x).id ≠ f.op.id

def AllSearching (s : Sys) (xs : List Addr) : Prop :=
  ∀ (c : Nat) (f : Frame), s.frames[c]? = some f → Searching s xs f

theorem Searching.new (s : Sys) (xs : List Addr) (op : Op) : Searching s xs (Frame.new op) where
  missed := fun _ h => by cases h
  passed := fun _ _ h => by cases h

theorem AllSearching.boot (m : Mem) (ops : List Op) (xs : List Addr) :
    AllSearching (Sys.boot m ops) xs := by
  intro c f hf
  obtain ⟨op, -, rfl⟩ := List.mem_map.mp (List.mem_of_getElem? hf)
  exact .new ..

theorem front_cons_of_node {as bs : List Addr} {L : Links Addr} (h : IsRing L (as ++ bs))
    (hb : Ptr.node b = front bs) : ∃ bs', bs = b :: bs' ∧ L.next (.node b) = front bs' := by
  cases bs with
  | nil => cases hb
  | cons y bs' =>
      cases hb
      exact ⟨bs', rfl, h.next_node⟩

theorem Relists.same_of_locked (h : Relists s a s' xs ut xs' ut') (hcore : Core s xs ut)
    (hg : s.frames[c]? = some g) (hgl : g.locked = true) (hne : ∀ alloc, a ≠ .run c alloc)
    (htyped : Typed s) : xs' = xs := by
  cases h with
  | same hnext hentry hhist => rfl
  | added k alloc f b ha hf hpc hframes hlinks hbook hentry hhist =>
      have hk : c = k := hcore.lock_unique hg hf hgl (by simp [Frame.locked, hpc])
      subst hk
      exact absurd ha (hne alloc)
  | replaced k alloc f b newB u id async ha hf hpc hop hb hframes hlinks hbook hentry hhist =>
      have hk : c = k := hcore.lock_unique hg hf hgl (by simp [Frame.locked, hpc])
      subst hk
      exact absurd ha (hne alloc)
  | deleted k alloc f b ha hf hpc hb hframes hlinks hbook hentry hhist =>
      have hfits := htyped f (List.mem_of_getElem? hf)
      have hdel : f.op.deletes = true := by simpa [hpc, Pc.suits] using hfits.suits
      have hk : c = k := hcore.lock_unique hg hf hgl
        (hfits.locked (by simp [hpc, Pc.inside]) hdel)
      subst hk
      exact absurd ha (hne alloc)

/-- A call whose step leaves it with a cursor has not changed the list. -/
theorem Relists.same_of_cursor (h : Relists s a s' xs ut xs' ut') (ha : a = .run c alloc)
    (hg : s'.frames[c]? = some g) (hp : g.pc.cursor = some p) : xs' = xs := by
  cases h with
  | same hnext hentry hhist => rfl
  | added k alloc f b ha' hf hpc hframes hlinks hbook hentry hhist =>
      cases ha.symm.trans ha'
      rw [hframes] at hg
      rw [eq_of_getElem?_set hf hg] at hp
      cases hp
  | replaced k alloc f b newB u id async ha' hf hpc hop hb hframes hlinks hbook hentry hhist =>
      cases ha.symm.trans ha'
      rw [hframes] at hg
      rw [eq_of_getElem?_set hf hg] at hp
      cases hp
  | deleted k alloc f b ha' hf hpc hb hframes hlinks hbook hentry hhist =>
      cases ha.symm.trans ha'
      rw [hframes] at hg
      rw [eq_of_getElem?_set hf hg] at hp
      cases hp

theorem Searching.mono (h : Searching s xs f) (hcore : Core s xs ut) (hf : s.frames[c]? = some f)
    (htyped : Typed s) (hs : s.step cfg a = some s') (hr : Relists s a s' xs ut xs' ut')
    (hne : ∀ alloc, a ≠ .run c alloc) : Searching s' xs' f where
  missed := by
    intro b hb
    have hsafe := (hcore.frame c f hf).reads b (by simp [hb, Pc.reads])
    rw [hcore.book_step hs hsafe.published]
    exact h.missed b hb
  passed := by
    intro hdel p hp
    have hfits := htyped f (List.mem_of_getElem? hf)
    have hlocked := hfits.locked (Pc.inside_of_cursor hp) hdel
    obtain ⟨as, bs, hxs, hfront, hbefore⟩ := h.passed hdel p hp
    refine ⟨as, bs, (hr.same_of_locked hcore hf hlocked hne htyped).trans hxs, hfront, ?_⟩
    intro x hx
    rw [hcore.book_step hs (.inl (by simp [hxs, hx]))]
    exact hbefore x hx

theorem AllSearching.step (h : AllSearching s xs) (hcore : Core s xs ut) (htyped : Typed s)
    (hs : s.step cfg a = some s') (hr : Relists s a s' xs ut xs' ut') : AllSearching s' xs' := by
  intro c g hg
  rcases step_frame htyped hs hg with ⟨op, -, -, rfl⟩ | ⟨al, f, t, ha, hf, ht, rfl⟩ | ⟨hold, hne⟩
  · exact .new ..
  · have htr := frameStep_trans ht
    refine ⟨fun b hb => Trans.next (t := t) htr hf hg hb, ?_⟩
    intro hdel p hp
    obtain ⟨hmem, hin, hop, hcase⟩ := Trans.cursor (t := t) htr hf hg hp
    have hxs : xs' = xs := hr.same_of_cursor ha hg hp
    rw [hop] at hdel ⊢
    change ∃ as bs, xs' = as ++ bs ∧ p = front bs ∧ ∀ x ∈ as, (t.mem.book x).id ≠ f.op.id
    rw [hmem, hxs]
    rcases hcase with ⟨-, rfl⟩ | hp | ⟨b, hpc, rfl⟩
    · exact ⟨[], xs, rfl, hcore.ring.next_head, fun x hx => by cases hx⟩
    · exact (h c f hf).passed hdel p hp
    · -- the search goes past `b`, which does not have the id
      obtain ⟨as, bs, rfl, hfront, hbefore⟩ :=
        (h c f hf).passed hdel (.node b) (by simp [hpc, Pc.cursor])
      obtain ⟨bs', rfl, hnext⟩ := front_cons_of_node hcore.ring hfront
      refine ⟨as ++ [b], bs', by simp, hnext, ?_⟩
      intro x hx
      rcases List.mem_append.mp hx with hx | hx
      · exact hbefore x hx
      · rw [List.mem_singleton.mp hx]
        exact (h c f hf).missed b hpc
  · exact (h c g hold).mono hcore hold htyped hs hr hne

end KernelTrg.Books
