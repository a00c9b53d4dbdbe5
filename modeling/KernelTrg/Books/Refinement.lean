import KernelTrg.Books.Sequential
import KernelTrg.Books.Catalogue

/-!
# The book list refines the catalogue

`Represents` ties the linked objects to the abstract entries one by one. Every call
keeps it, makes no access it must not make and returns what the abstract operation
returns, whatever the ids, the allocation outcomes and the reclamation mode.
-/

namespace KernelTrg.Books

open LinkRing

def Entry.toBook (e : Entry) : Book := ⟨e.id, e.name, e.author, if e.borrowed then 1 else 0⟩

def Update.lends : Update → Bool
  | .borrow => true
  | .giveBack => false

theorem Update.refuses_toBook (u : Update) (e : Entry) :
    u.refuses e.toBook.borrow = (e.borrowed == u.lends) := by
  cases u <;> cases h : e.borrowed <;> simp [Update.refuses, Update.lends, Entry.toBook, h]

theorem Update.toBook_flag (u : Update) (e : Entry) :
    { e.toBook with borrow := u.flag } = ({ e with borrowed := u.lends } : Entry).toBook := by
  cases u <;> rfl

/-- The objects `xs` make up the list, are live, and show the catalogue `c`. -/
structure Represents (m : Mem) (xs : List Addr) (c : Catalogue) : Prop where
  ring : IsRing m.links xs
  live : ∀ b ∈ xs, m.Live b
  shows : xs.map m.book = c.map Entry.toBook

/-- The module state shows the catalogue on the objects `xs`; what is freed or awaits its
callback is an old allocation, and what awaits its callback is off the list. -/
structure RefinesOn (s : Module) (xs : List Addr) (c : Catalogue) : Prop where
  shown : Represents s.mem xs c
  freed : ∀ b ∈ s.mem.freed, b < s.mem.brk
  pending : ∀ b ∈ s.callbacks, b < s.mem.brk ∧ b ∉ xs

def Refines (s : Module) (c : Catalogue) : Prop := ∃ xs, RefinesOn s xs c

theorem refines_init : Refines Module.init [] := by
  refine ⟨[], ⟨IsRing.empty ⟨rfl, rfl⟩, by simp, rfl⟩, ?_, ?_⟩
  · intro b hb
    cases hb
  · intro b hb
    cases hb

namespace Represents

variable {m m' : Mem} {xs : List Addr} {c : Catalogue} {b : Addr}

theorem brk_not_mem (h : Represents m xs c) : m.brk ∉ xs :=
  fun hm => Nat.lt_irrefl _ (h.live _ hm).1

theorem onList (h : Represents m xs c) : m.onList = xs := onList_eq h.ring fun b hb => (h.live b hb).1

theorem catalogue (h : Represents m xs c) : m.catalogue = c.map Entry.toBook := by
  rw [Mem.catalogue, h.onList, h.shows]

theorem off (h : Represents m xs c) (ha : AgreeOff b m m') (hb : b ∉ xs) : Represents m' xs c where
  ring := ha.isRing h.ring hb
  live := fun a hm => ha.live (h.live a hm)
  shows := by rw [ha.map_book hb, h.shows]

theorem kfree (h : Represents m xs c) (hb : b ∉ xs) : Represents (m.kfree b) xs c where
  ring := h.ring
  live := by
    intro a ha
    have hne : a ≠ b := fun e => hb (e ▸ ha)
    exact ⟨(h.live a ha).1, by simpa [Mem.kfree, hne] using (h.live a ha).2⟩
  shows := h.shows

/-- A position of the list is the same position of the catalogue. -/
theorem split (h : Represents m xs c) {as bs : List Addr} (hs : xs = as ++ b :: bs) :
    ∃ ca e cb, c = ca ++ e :: cb ∧ as.map m.book = ca.map Entry.toBook ∧
      m.book b = e.toBook ∧ bs.map m.book = cb.map Entry.toBook := by
  have hshows := h.shows
  rw [hs, List.map_append, List.map_cons, eq_comm, List.map_eq_append_iff] at hshows
  obtain ⟨ca, rest, rfl, ha, hrest⟩ := hshows
  obtain ⟨e, cb, rfl, he, hb⟩ := List.map_eq_cons_iff.mp hrest
  exact ⟨ca, e, cb, rfl, ha.symm, he.symm, hb.symm⟩

theorem ids_ne {as : List Addr} {ca : Catalogue} {id : Int}
    (h : as.map m.book = ca.map Entry.toBook) (has : ∀ a ∈ as, (m.book a).id ≠ id) :
    ∀ e ∈ ca, e.id ≠ id := by
  intro e he
  obtain ⟨a, ha, hae⟩ := List.mem_map.mp (h ▸ List.mem_map_of_mem (f := Entry.toBook) he)
  have hid := has a ha
  rwa [hae] at hid

end Represents

/-! ## The search -/

/-- From any point of the list on, the search finds the first matching object still to come. -/
theorem findBook_suffix {m : Mem} {id : Int} (as : List Addr) {bs : List Addr}
    (h : IsRing m.links (as ++ bs)) (hlive : ∀ b ∈ bs, m.Live b) (n : Nat) :
    findBook m id (bs.length + 1 + n) (front bs) =
      some (bs.find? fun b => (m.book b).id = id) := by
  induction bs generalizing as with
  | nil =>
      rw [List.length_nil, Nat.zero_add, Nat.add_comm]
      rfl
  | cons b bs ih =>
      have hb : m.Live b := hlive b (by simp)
      have hrec := ih (as ++ [b]) (by simpa using h) fun x hx => hlive x (by simp [hx])
      have hfuel : (b :: bs).length + 1 + n = (bs.length + 1 + n) + 1 := by
        simp only [List.length_cons]
        omega
      rw [hfuel]
      simp only [front, findBook, if_pos hb]
      rw [h.next_node, hrec]
      by_cases hid : (m.book b).id = id <;> simp [hid]

theorem lookup_eq {m : Mem} {xs : List Addr} {c : Catalogue} (h : Represents m xs c) (id : Int) :
    lookup m id = some (xs.find? fun b => (m.book b).id = id) := by
  have hlen : xs.length ≤ m.brk := by
    have hsub : xs ⊆ List.range m.brk := fun b hb => List.mem_range.mpr (h.live b hb).1
    simpa using (h.ring.nodup.subperm hsub).length_le
  obtain ⟨n, hn⟩ := Nat.exists_eq_add_of_le hlen
  have hfuel : m.brk + 1 = xs.length + 1 + n := by omega
  unfold lookup
  rw [h.ring.next_head, hfuel]
  exact findBook_suffix [] h.ring h.live n

/-- Either the id is absent from the list and the catalogue, or the search stops at the
object of the first entry with it. -/
theorem lookup_cases {m : Mem} {xs : List Addr} {c : Catalogue} (h : Represents m xs c)
    (id : Int) :
    (lookup m id = some none ∧ ∀ e ∈ c, e.id ≠ id) ∨
    ∃ as b bs ca e cb, lookup m id = some (some b) ∧ xs = as ++ b :: bs ∧ c = ca ++ e :: cb ∧
      as.map m.book = ca.map Entry.toBook ∧ m.book b = e.toBook ∧
      bs.map m.book = cb.map Entry.toBook ∧ e.id = id ∧ ∀ x ∈ ca, x.id ≠ id := by
  rw [lookup_eq h]
  cases hf : xs.find? fun b => (m.book b).id = id with
  | none =>
      refine .inl ⟨rfl, Represents.ids_ne h.shows ?_⟩
      simpa using hf
  | some b =>
      obtain ⟨hb, as, bs, hs, has⟩ := List.find?_eq_some_iff_append.mp hf
      obtain ⟨ca, e, cb, hc, ha, he, hcb⟩ := h.split hs
      refine .inr ⟨as, b, bs, ca, e, cb, rfl, hs, hc, ha, he, hcb, ?_, ?_⟩
      · have hid : (m.book b).id = id := by simpa using hb
        rwa [he] at hid
      · exact Represents.ids_ne ha (by simpa using has)

/-! ## The updates -/

theorem Represents.replace {m : Mem} {as bs : List Addr} {b newB : Addr} {ca cb : Catalogue}
    {e e' : Entry} (h : Represents m (as ++ b :: bs) (ca ++ e :: cb))
    (ha : as.map m.book = ca.map Entry.toBook) (hb : bs.map m.book = cb.map Entry.toBook)
    (hnew : newB ∉ as ++ b :: bs) (hlive : m.Live newB) (hbook : m.book newB = e'.toBook) :
    Represents (m.listReplaceRcu b newB) (as ++ newB :: bs) (ca ++ e' :: cb) := by
  have hring := h.ring.replace (a := b) (b := newB) (by simp) hnew
  rw [rename_split h.ring.nodup] at hring
  refine ⟨hring, ?_, ?_⟩
  · intro x hx
    rcases List.mem_append.mp hx with hx | hx
    · exact h.live x (by simp [hx])
    · rcases List.mem_cons.mp hx with rfl | hx
      · exact hlive
      · exact h.live x (by simp [hx])
  · simp only [Mem.listReplaceRcu, List.map_append, List.map_cons, ha, hb, hbook]

theorem Represents.delete {m : Mem} {as bs : List Addr} {b : Addr} {ca cb : Catalogue} {e : Entry}
    (h : Represents m (as ++ b :: bs) (ca ++ e :: cb)) (ha : as.map m.book = ca.map Entry.toBook)
    (hb : bs.map m.book = cb.map Entry.toBook) :
    Represents (m.listDelRcu b) (as ++ bs) (ca ++ cb) ∧ b ∉ as ++ bs := by
  have hring := h.ring.unlink (a := b) (by simp)
  obtain ⟨has, hbs⟩ := split_ne h.ring.nodup
  rw [filter_split h.ring.nodup] at hring
  refine ⟨⟨hring, ?_, ?_⟩, ?_⟩
  · intro x hx
    rcases List.mem_append.mp hx with hx | hx
    · exact h.live x (by simp [hx])
    · exact h.live x (by simp [hx])
  · simp only [Mem.listDelRcu, List.map_append, ha, hb]
  · intro hm
    rcases List.mem_append.mp hm with hm | hm
    · exact has b hm rfl
    · exact hbs b hm rfl

/-! ## The operations -/

variable {s : Module} {xs : List Addr} {c : Catalogue}

theorem RefinesOn.fresh (h : RefinesOn s xs c) :
    s.mem.brk ∉ xs ∧ s.mem.brk ∉ s.mem.freed ∧ s.mem.brk ∉ s.callbacks :=
  ⟨h.shown.brk_not_mem, fun hm => Nat.lt_irrefl _ (h.freed _ hm),
    fun hm => Nat.lt_irrefl _ (h.pending _ hm).1⟩

theorem RefinesOn.reclaim {b : Addr} {async : Bool} (h : RefinesOn s xs c) (hold : b < s.mem.brk)
    (hb : b ∉ xs) : RefinesOn (Books.reclaim s b async) xs c := by
  cases async with
  | true =>
      refine ⟨h.shown, h.freed, ?_⟩
      intro a ha
      rcases List.mem_append.mp ha with ha | ha
      · exact h.pending a ha
      · rw [List.mem_singleton.mp ha]
        exact ⟨hold, hb⟩
  | false =>
      refine ⟨h.shown.kfree hb, ?_, h.pending⟩
      intro a ha
      rcases List.mem_cons.mp ha with rfl | ha
      · exact hold
      · exact h.freed a ha

theorem bookReclaimCallback_refines (h : Refines s c) : Refines (bookReclaimCallback s) c := by
  obtain ⟨xs, h⟩ := h
  unfold bookReclaimCallback
  cases hcb : s.callbacks with
  | nil => exact ⟨xs, h⟩
  | cons b rest =>
      have hb := h.pending b (by simp [hcb])
      refine ⟨xs, h.shown.kfree hb.2, ?_, ?_⟩
      · intro a ha
        rcases List.mem_cons.mp ha with rfl | ha
        · exact hb.1
        · exact h.freed a ha
      · intro a ha
        exact h.pending a (by simp [hcb, show a ∈ rest from ha])

theorem addBook_refines (h : Refines s c) (id : Int) (name author : List UInt8) (alloc : Bool) :
    Refines (addBook s id name author alloc)
      (c.add ⟨id, strncpy nameSize name, strncpy nameSize author, false⟩ alloc) := by
  cases alloc with
  | false => exact h
  | true =>
      obtain ⟨xs, h⟩ := h
      obtain ⟨hb, hfreed, hcb⟩ := h.fresh
      let b := s.mem.brk
      let v : Book := ⟨id, strncpy nameSize name, strncpy nameSize author, 0⟩
      have hmem : Represents (s.mem.kzalloc.setBook b v) xs c :=
        h.shown.off ((AgreeOff.kzalloc s.mem).trans (AgreeOff.setBook ..)) hb
      refine ⟨b :: xs, ⟨hmem.ring.insert hb, ?_, ?_⟩, ?_, ?_⟩
      · intro a ha
        rcases List.mem_cons.mp ha with rfl | ha
        · exact ⟨Nat.lt_succ_self _, hfreed⟩
        · exact hmem.live a ha
      · have hv : (s.mem.kzalloc.setBook b v).book b = v := Function.update_self ..
        change (b :: xs).map (s.mem.kzalloc.setBook b v).book = _
        rw [List.map_cons, hv, hmem.shows]
        rfl
      · intro a ha
        exact Nat.lt_succ_of_lt (h.freed a ha)
      · intro a ha
        refine ⟨Nat.lt_succ_of_lt (h.pending a ha).1, ?_⟩
        intro hm
        rcases List.mem_cons.mp hm with rfl | hm
        · exact hcb ha
        · exact (h.pending a ha).2 hm

/-- The replacement step of an updater: the first entry with the id changes its flag. -/
theorem updateBook_replaces (h : RefinesOn s xs c) {u : Update} {as bs : List Addr} {b : Addr}
    {ca cb : Catalogue} {e : Entry} (hxs : xs = as ++ b :: bs) (hc : c = ca ++ e :: cb)
    (ha : as.map s.mem.book = ca.map Entry.toBook) (he : s.mem.book b = e.toBook)
    (hb : bs.map s.mem.book = cb.map Entry.toBook) (async : Bool) :
    let newB := s.mem.brk
    let mem := (s.mem.kzalloc.memcpy newB b).setBorrow newB u.flag
    mem.links.prev (.node b) ≠ .poison ∧
      Refines (Books.reclaim { s with mem := mem.listReplaceRcu b newB } b async)
        (ca ++ { e with borrowed := u.lends } :: cb) := by
  intro newB mem
  subst hxs hc
  obtain ⟨hfresh, hfreed, -⟩ := h.fresh
  have hbx : b ∈ as ++ b :: bs := by simp
  have hoff : AgreeOff newB s.mem mem :=
    ((AgreeOff.kzalloc s.mem).trans (AgreeOff.memcpy ..)).trans (AgreeOff.setBook ..)
  have hmem := h.shown.off hoff hfresh
  have hne : ∀ a ∈ as ++ b :: bs, a ≠ newB := by
    intro a ham heq
    rw [heq] at ham
    exact hfresh ham
  have hnew : mem.book newB = ({ e with borrowed := u.lends } : Entry).toBook := by
    have hcopy : (s.mem.kzalloc.memcpy newB b).book newB = e.toBook := by
      rw [← he, ← (AgreeOff.kzalloc s.mem).book b (hne b hbx)]
      exact Function.update_self ..
    rw [← u.toBook_flag, ← hcopy]
    exact Function.update_self ..
  have hlive : mem.Live newB := ⟨Nat.lt_succ_self _, hfreed⟩
  have hrep := hmem.replace
    (by rw [hoff.map_book fun hm => hne newB (by simp [hm]) rfl]; exact ha)
    (by rw [hoff.map_book fun hm => hne newB (by simp [hm]) rfl]; exact hb) hfresh hlive hnew
  refine ⟨?_, as ++ newB :: bs, RefinesOn.reclaim ⟨hrep, ?_, ?_⟩ ?_ ?_⟩
  · intro hp
    have hmem' := hmem.ring.prev_mem (mem_ring_node.mpr hbx)
    rw [hp] at hmem'
    exact not_mem_ring_poison hmem'
  · intro a ham
    exact Nat.lt_succ_of_lt (h.freed a ham)
  · intro a ham
    obtain ⟨hlt, hnot⟩ := h.pending a ham
    refine ⟨Nat.lt_succ_of_lt hlt, ?_⟩
    intro hm
    have : a = newB ∨ a ∈ as ++ b :: bs := by
      simp only [List.mem_append, List.mem_cons] at hm ⊢
      tauto
    rcases this with rfl | hm
    · exact Nat.lt_irrefl _ hlt
    · exact hnot hm
  · exact Nat.lt_succ_of_lt (h.shown.live b hbx).1
  · obtain ⟨has, hbs⟩ := split_ne h.shown.ring.nodup
    have hbn := hne b hbx
    simp only [List.mem_append, List.mem_cons, not_or]
    exact ⟨fun hm => has b hm rfl, hbn, fun hm => hbs b hm rfl⟩

theorem updateBook_refines (h : Refines s c) (u : Update) (id : Int) (async alloc : Bool) :
    ∃ s', updateBook u s id async alloc = some (s', (c.switch u.lends id alloc).2) ∧
      Refines s' (c.switch u.lends id alloc).1 := by
  obtain ⟨xs, h⟩ := h
  unfold updateBook Catalogue.switch
  rcases lookup_cases h.shown id with
    ⟨hl, hne⟩ | ⟨as, b, bs, ca, e, cb, hl, hxs, hc, ha, he, hb, hid, hca⟩
  · rw [hl, Catalogue.findFirst_none hne]
    exact ⟨s, rfl, xs, h⟩
  · obtain ⟨hprev, href⟩ := updateBook_replaces h (u := u) hxs hc ha he hb async
    rw [hl, hc, Catalogue.findFirst_split hca hid, Catalogue.setFirst_split hca hid]
    simp only [he, u.refuses_toBook]
    rw [hc] at h
    by_cases hflag : e.borrowed = u.lends
    · have hopp : ¬ (e.borrowed = !u.lends ∧ alloc = true) := by
        cases u <;> simp_all [Update.lends]
      simp only [hflag, beq_self_eq_true, if_true]
      rw [hflag] at hopp
      rw [if_neg hopp]
      exact ⟨s, rfl, xs, h⟩
    · have hopp : e.borrowed = !u.lends := by
        cases u <;> simp_all [Update.lends]
      have hbeq : (e.borrowed == u.lends) = false := by simpa using hflag
      simp only [hbeq, Bool.false_eq_true, if_false]
      cases alloc with
      | false => exact ⟨s, by simp, xs, by simpa using h⟩
      | true =>
          simp only [Bool.not_true, Bool.false_eq_true, if_false, if_neg hprev]
          rw [if_pos ⟨hopp, trivial⟩]
          exact ⟨_, rfl, href⟩

theorem deleteBook_refines (h : Refines s c) (id : Int) (async : Bool) :
    ∃ s', deleteBook s id async = some s' ∧ Refines s' (c.delete id) := by
  obtain ⟨xs, h⟩ := h
  unfold deleteBook
  rcases lookup_cases h.shown id with
    ⟨hl, hne⟩ | ⟨as, b, bs, ca, e, cb, hl, rfl, rfl, ha, he, hb, hid, hca⟩
  · rw [hl, Catalogue.delete_none hne]
    exact ⟨s, rfl, xs, h⟩
  · have hbx : b ∈ as ++ b :: bs := by simp
    have hprev : s.mem.links.prev (.node b) ≠ .poison := by
      intro hp
      have hmem := h.shown.ring.prev_mem (mem_ring_node.mpr hbx)
      rw [hp] at hmem
      exact not_mem_ring_poison hmem
    obtain ⟨hrep, hnot⟩ := h.shown.delete ha hb
    rw [hl, Catalogue.delete_split hca hid]
    simp only [if_neg hprev]
    refine ⟨_, rfl, as ++ bs, RefinesOn.reclaim ⟨hrep, h.freed, ?_⟩ (h.shown.live b hbx).1 hnot⟩
    intro a hm
    refine ⟨(h.pending a hm).1, fun hx => (h.pending a hm).2 ?_⟩
    simp only [List.mem_append, List.mem_cons] at hx ⊢
    tauto

theorem isBorrowedBook_refines (h : Refines s c) (id : Int) :
    isBorrowedBook s id = some (c.isBorrowed id) := by
  obtain ⟨xs, h⟩ := h
  unfold isBorrowedBook Catalogue.isBorrowed
  rcases lookup_cases h.shown id with
    ⟨hl, hne⟩ | ⟨as, b, bs, ca, e, cb, hl, rfl, rfl, -, he, -, hid, hca⟩
  · rw [hl, Catalogue.findFirst_none hne]
  · have hlive := h.shown.live b (by simp)
    rw [hl, Catalogue.findFirst_split hca hid]
    simp only [if_pos hlive, he, Entry.toBook]

/-! ## Whole sequences of calls -/

def Call.apply (c : Catalogue) : Call → Catalogue × Option Int
  | .addBook id name author alloc =>
      (c.add ⟨id, strncpy nameSize name, strncpy nameSize author, false⟩ alloc, none)
  | .borrowBook id _ alloc => ((c.switch true id alloc).1, some (c.switch true id alloc).2)
  | .returnBook id _ alloc => ((c.switch false id alloc).1, some (c.switch false id alloc).2)
  | .deleteBook id _ => (c.delete id, none)
  | .isBorrowedBook id => (c, some (c.isBorrowed id))
  | .callback => (c, none)

def applyCalls (c : Catalogue) : List Call → Catalogue × List (Option Int)
  | [] => (c, [])
  | call :: calls =>
      let (c', r) := call.apply c
      let (c'', rs) := applyCalls c' calls
      (c'', r :: rs)

theorem Call.run_refines (h : Refines s c) (call : Call) :
    ∃ s', call.run s = some (s', (call.apply c).2) ∧ Refines s' (call.apply c).1 := by
  cases call with
  | addBook id name author alloc => exact ⟨_, rfl, addBook_refines h id name author alloc⟩
  | borrowBook id async alloc =>
      obtain ⟨s', hs, hr⟩ := updateBook_refines h .borrow id async alloc
      exact ⟨s', by rw [Call.run, Books.borrowBook, hs]; rfl, hr⟩
  | returnBook id async alloc =>
      obtain ⟨s', hs, hr⟩ := updateBook_refines h .giveBack id async alloc
      exact ⟨s', by rw [Call.run, Books.returnBook, hs]; rfl, hr⟩
  | deleteBook id async =>
      obtain ⟨s', hs, hr⟩ := deleteBook_refines h id async
      exact ⟨s', by simp [Call.run, hs, Call.apply], hr⟩
  | isBorrowedBook id =>
      exact ⟨s, by simp [Call.run, isBorrowedBook_refines h id, Call.apply], h⟩
  | callback => exact ⟨_, rfl, bookReclaimCallback_refines h⟩

theorem runCalls_refines (h : Refines s c) (calls : List Call) :
    ∃ s', runCalls s calls = some (s', (applyCalls c calls).2) ∧
      Refines s' (applyCalls c calls).1 := by
  induction calls generalizing s c with
  | nil => exact ⟨s, rfl, h⟩
  | cons call calls ih =>
      obtain ⟨s₁, h₁, hr₁⟩ := call.run_refines h
      obtain ⟨s₂, h₂, hr₂⟩ := ih hr₁
      exact ⟨s₂, by simp [runCalls, h₁, h₂, applyCalls], hr₂⟩

/-- Any sequence of calls on the freshly loaded module makes no forbidden access, returns
what the abstract operations return, and leaves a list that shows the abstract catalogue. -/
theorem module_refines_catalogue (calls : List Call) :
    ∃ s, runCalls Module.init calls = some (s, (applyCalls [] calls).2) ∧
      Refines s (applyCalls [] calls).1 ∧
      s.mem.catalogue = (applyCalls [] calls).1.map Entry.toBook := by
  obtain ⟨s, hrun, hr⟩ := runCalls_refines refines_init calls
  obtain ⟨xs, hx⟩ := hr
  exact ⟨s, hrun, ⟨xs, hx⟩, hx.shown.catalogue⟩

end KernelTrg.Books
