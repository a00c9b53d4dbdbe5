import Mathlib.Data.List.Chain
import Mathlib.Data.List.Nodup
import Mathlib.Logic.Function.Basic
import Mathlib.Logic.Function.Iterate

/-!
# Circular doubly linked lists with a sentinel head

`Links` holds the two link fields of every cell a pointer can denote. The three
updates are the store sequences of the intrusive list used in kernels: insert
after a cell, replace a cell by another, and unlink a cell, the last two leaving
the forward link of the removed cell intact and poisoning its backward link. The
poison value is an address like any other, so that a store through it lands in a
cell of its own. `IsRing` says that the links form one ring through a given list
of cells, and each update comes with its effect on that list and its frame.
-/

namespace KernelTrg.LinkRing

/-- A link value: nothing, the sentinel, a cell, or the poison left by an unlink. -/
inductive Ptr (α : Type*) where
  | null
  | head
  | node (a : α)
  | poison
deriving DecidableEq, Repr

structure Links (α : Type*) where
  next : Ptr α → Ptr α
  prev : Ptr α → Ptr α

/-- The pointers met on the way round: the sentinel, the cells, the sentinel again. -/
def ring {α : Type*} (xs : List α) : List (Ptr α) := .head :: (xs.map .node ++ [.head])

/-- `q` follows `p`, read in both directions. -/
def Links.Linked {α : Type*} (L : Links α) (p q : Ptr α) : Prop := L.next p = q ∧ L.prev q = p

/-- The pointer a traversal holds when the cells `xs` are still to come. -/
def front {α : Type*} : List α → Ptr α
  | [] => .head
  | a :: _ => .node a

structure IsRing {α : Type*} (L : Links α) (xs : List α) : Prop where
  chain : (ring xs).IsChain L.Linked
  nodup : xs.Nodup

/-! ## Membership and neighbours -/

section Neighbours

variable {α : Type*} {L : Links α} {xs : List α} {p q : Ptr α} {a : α}

@[simp] theorem mem_ring_head : Ptr.head ∈ ring xs := by simp [ring]

@[simp] theorem mem_ring_node : Ptr.node a ∈ ring xs ↔ a ∈ xs := by simp [ring]

@[simp] theorem not_mem_ring_null : Ptr.null ∉ ring xs := by simp [ring]

@[simp] theorem not_mem_ring_poison : Ptr.poison ∉ ring xs := by simp [ring]

theorem mem_ring_iff : p ∈ ring xs ↔ p = .head ∨ ∃ a ∈ xs, p = .node a := by
  cases p <;> simp

theorem exists_last_before (as : List α) :
    ∃ l p, Ptr.head :: as.map Ptr.node = l ++ [p] := by
  rcases List.eq_nil_or_concat as with rfl | ⟨bs, b, rfl⟩
  · exact ⟨[], .head, rfl⟩
  · exact ⟨.head :: bs.map .node, .node b, by simp⟩

theorem exists_first_after (bs : List α) :
    ∃ q l, bs.map Ptr.node ++ [Ptr.head] = q :: l := by
  cases bs with
  | nil => exact ⟨.head, [], rfl⟩
  | cons b bs => exact ⟨.node b, bs.map .node ++ [.head], rfl⟩

theorem ring_split (as bs : List α) (a : α) :
    ring (as ++ a :: bs) =
      (.head :: as.map .node) ++ .node a :: (bs.map .node ++ [.head]) := by
  simp [ring]

theorem exists_follower (hp : p ∈ ring xs) : ∃ l₁ q l₂, ring xs = l₁ ++ p :: q :: l₂ := by
  rcases mem_ring_iff.mp hp with rfl | ⟨a, ha, rfl⟩
  · obtain ⟨q, l, hq⟩ := exists_first_after xs
    exact ⟨[], q, l, by simp [ring, hq]⟩
  · obtain ⟨as, bs, rfl⟩ := List.append_of_mem ha
    obtain ⟨q, l, hq⟩ := exists_first_after bs
    exact ⟨.head :: as.map .node, q, l, by rw [ring_split, hq]⟩

theorem exists_leader (hq : q ∈ ring xs) : ∃ l₁ p l₂, ring xs = l₁ ++ p :: q :: l₂ := by
  rcases mem_ring_iff.mp hq with rfl | ⟨a, ha, rfl⟩
  · obtain ⟨l, p, hp⟩ := exists_last_before xs
    exact ⟨l, p, [], by rw [ring, ← List.cons_append, hp]; simp⟩
  · obtain ⟨as, bs, rfl⟩ := List.append_of_mem ha
    obtain ⟨l, p, hp⟩ := exists_last_before as
    exact ⟨l, p, bs.map .node ++ [.head], by rw [ring_split, hp]; simp⟩

namespace IsRing

theorem linked_of_split (h : IsRing L xs) (l₁ l₂ : List (Ptr α))
    (hs : ring xs = l₁ ++ p :: q :: l₂) : L.Linked p q :=
  List.isChain_iff_forall_rel_of_append_cons_cons.mp h.chain hs

theorem next_mem (h : IsRing L xs) (hp : p ∈ ring xs) : L.next p ∈ ring xs := by
  obtain ⟨l₁, q, l₂, hs⟩ := exists_follower hp
  rw [(h.linked_of_split l₁ l₂ hs).1, hs]
  simp

theorem prev_mem (h : IsRing L xs) (hq : q ∈ ring xs) : L.prev q ∈ ring xs := by
  obtain ⟨l₁, p, l₂, hs⟩ := exists_leader hq
  rw [(h.linked_of_split l₁ l₂ hs).2, hs]
  simp

theorem prev_next (h : IsRing L xs) (hp : p ∈ ring xs) : L.prev (L.next p) = p := by
  obtain ⟨l₁, q, l₂, hs⟩ := exists_follower hp
  have hl := h.linked_of_split l₁ l₂ hs
  rw [hl.1, hl.2]

theorem next_prev (h : IsRing L xs) (hq : q ∈ ring xs) : L.next (L.prev q) = q := by
  obtain ⟨l₁, p, l₂, hs⟩ := exists_leader hq
  have hl := h.linked_of_split l₁ l₂ hs
  rw [hl.2, hl.1]

/-- The neighbours of a cell close the two halves of the ring on either side of it. -/
theorem around (h : IsRing L xs) (ha : a ∈ xs) : ∃ as bs l₁ l₂, xs = as ++ a :: bs ∧
    Ptr.head :: as.map Ptr.node = l₁ ++ [L.prev (.node a)] ∧
    bs.map Ptr.node ++ [Ptr.head] = L.next (.node a) :: l₂ := by
  obtain ⟨as, bs, rfl⟩ := List.append_of_mem ha
  obtain ⟨l₁, p, hp⟩ := exists_last_before as
  obtain ⟨q, l₂, hq⟩ := exists_first_after bs
  have hprev : L.Linked p (.node a) :=
    h.linked_of_split l₁ (bs.map .node ++ [.head]) (by rw [ring_split, hp]; simp)
  have hnext : L.Linked (.node a) q :=
    h.linked_of_split (.head :: as.map .node) l₂ (by rw [ring_split, hq])
  exact ⟨as, bs, l₁, l₂, rfl, by rw [hprev.2, hp], by rw [hnext.1, hq]⟩

theorem next_ne_self (h : IsRing L xs) (ha : a ∈ xs) : L.next (.node a) ≠ .node a := by
  obtain ⟨as, bs, l₁, l₂, rfl, -, hb⟩ := h.around ha
  have hmem : L.next (.node a) ∈ bs.map Ptr.node ++ [Ptr.head] := by rw [hb]; simp
  have hnot : a ∉ bs := by
    have := h.nodup
    simp_all [List.nodup_append]
  intro hself
  rw [hself] at hmem
  simp [hnot] at hmem

theorem prev_ne_self (h : IsRing L xs) (ha : a ∈ xs) : L.prev (.node a) ≠ .node a := by
  intro hself
  apply h.next_ne_self ha
  have := h.next_prev (mem_ring_node.mpr ha)
  rwa [hself] at this

theorem next_head (h : IsRing L xs) : L.next .head = front xs := by
  have hchain := h.chain
  cases xs with
  | nil => exact (hchain.rel_head? rfl).1
  | cons a as => exact (hchain.rel_head? rfl).1

theorem next_node {as bs : List α} (h : IsRing L (as ++ a :: bs)) :
    L.next (.node a) = front bs := by
  have hchain := h.chain
  rw [ring_split] at hchain
  cases bs with
  | nil => exact (hchain.right_of_append.rel_head? rfl).1
  | cons b bs => exact (hchain.right_of_append.rel_head? rfl).1

theorem iterate_mem (h : IsRing L xs) (n : Nat) : L.next^[n] .head ∈ ring xs := by
  induction n with
  | zero => exact mem_ring_head
  | succ n ih =>
      rw [Function.iterate_succ_apply']
      exact h.next_mem ih

/-- The ring depends on the links of its own cells only. -/
theorem congr {L' : Links α} (h : IsRing L xs)
    (hagree : ∀ p ∈ ring xs, L'.next p = L.next p ∧ L'.prev p = L.prev p) : IsRing L' xs := by
  refine ⟨h.chain.imp_of_mem_imp fun p q hp hq hl => ?_, h.nodup⟩
  exact ⟨(hagree p hp).1.trans hl.1, (hagree q hq).2.trans hl.2⟩

end IsRing

end Neighbours

/-! ## The updates -/

variable {α : Type*} [DecidableEq α]

namespace Links

def setNext (L : Links α) (p q : Ptr α) : Links α := { L with next := Function.update L.next p q }

def setPrev (L : Links α) (p q : Ptr α) : Links α := { L with prev := Function.update L.prev p q }

/-- Link `new` in right after `prev`. -/
def insert (L : Links α) (new prev : Ptr α) : Links α :=
  let next := L.next prev
  let L := L.setNext new next
  let L := L.setPrev new prev
  let L := L.setNext prev new
  L.setPrev next new

def mirror (L : Links α) : Links α := ⟨L.prev, L.next⟩

/-- Link `new` in right before `next`, the mirror image of `insert`. -/
def insertBefore (L : Links α) (new next : Ptr α) : Links α := (L.mirror.insert new next).mirror

/-- Put `new` in the place of `old`, which keeps its forward link. -/
def replace (L : Links α) (old new : Ptr α) : Links α :=
  let L := L.setNext new (L.next old)
  let L := L.setPrev new (L.prev old)
  let L := L.setNext (L.prev new) new
  let L := L.setPrev (L.next new) new
  L.setPrev old .poison

/-- Link the neighbours of `entry`, which keeps its forward link, to each other. -/
def unlink (L : Links α) (entry : Ptr α) : Links α :=
  let next := L.next entry
  let prev := L.prev entry
  let L := L.setPrev next prev
  let L := L.setNext prev next
  L.setPrev entry .poison

theorem insert_next (L : Links α) (new prev : Ptr α) :
    (L.insert new prev).next =
      Function.update (Function.update L.next new (L.next prev)) prev new := rfl

theorem insert_prev (L : Links α) (new prev : Ptr α) :
    (L.insert new prev).prev =
      Function.update (Function.update L.prev new prev) (L.next prev) new := rfl

theorem replace_next (L : Links α) (old new : Ptr α) :
    (L.replace old new).next =
      Function.update (Function.update L.next new (L.next old)) (L.prev old) new := by
  simp [replace, setNext, setPrev]

theorem replace_prev (L : Links α) {old new : Ptr α} (hne : L.prev old ≠ new) :
    (L.replace old new).prev =
      Function.update (Function.update (Function.update L.prev new (L.prev old))
        (L.next old) new) old .poison := by
  simp [replace, setNext, setPrev, Function.update_of_ne hne.symm]

theorem unlink_next (L : Links α) (entry : Ptr α) :
    (L.unlink entry).next = Function.update L.next (L.prev entry) (L.next entry) := rfl

theorem unlink_prev (L : Links α) (entry : Ptr α) :
    (L.unlink entry).prev =
      Function.update (Function.update L.prev (L.next entry) (L.prev entry)) entry .poison := rfl

end Links

/-! ## Effect on the ring -/

variable {L : Links α} {xs as bs : List α} {a b x : α} {p q r : Ptr α}

omit [DecidableEq α] in
theorem split_ne (h : (as ++ a :: bs).Nodup) : (∀ x ∈ as, x ≠ a) ∧ ∀ x ∈ bs, x ≠ a := by
  rw [List.nodup_append, List.nodup_cons] at h
  exact ⟨fun x hx => h.2.2 x hx a (by simp), fun x hx e => h.2.1.1 (e ▸ hx)⟩

theorem filter_split (h : (as ++ a :: bs).Nodup) :
    (as ++ a :: bs).filter (· ≠ a) = as ++ bs := by
  obtain ⟨has, hbs⟩ := split_ne h
  rw [List.filter_append, List.filter_cons_of_neg (by simp),
    List.filter_eq_self.mpr fun x hx => by simpa using has x hx,
    List.filter_eq_self.mpr fun x hx => by simpa using hbs x hx]

def rename (a b : α) (xs : List α) : List α := xs.map fun x => if x = a then b else x

theorem rename_of_forall_ne (h : ∀ x ∈ xs, x ≠ a) : rename a b xs = xs := by
  unfold rename
  rw [List.map_congr_left fun x hx => if_neg (h x hx), List.map_id']

theorem rename_split (h : (as ++ a :: bs).Nodup) :
    rename a b (as ++ a :: bs) = as ++ b :: bs := by
  obtain ⟨has, hbs⟩ := split_ne h
  have hsplit : rename a b (as ++ a :: bs) = rename a b as ++ b :: rename a b bs := by
    simp [rename]
  rw [hsplit, rename_of_forall_ne has, rename_of_forall_ne hbs]

theorem mem_rename (ha : a ∈ xs) : x ∈ rename a b xs ↔ x = b ∨ x ∈ xs ∧ x ≠ a := by
  simp only [rename, List.mem_map]
  constructor
  · intro h
    rcases h with ⟨y, hy, rfl⟩
    by_cases he : y = a
    · simp [he]
    · simp [he, hy]
  · intro h
    rcases h with rfl | ⟨hx, hne⟩
    · exact ⟨a, ha, by simp⟩
    · exact ⟨x, hx, by simp [hne]⟩

namespace IsRing

omit [DecidableEq α] in
theorem empty (h : L.Linked .head .head) : IsRing L [] :=
  ⟨by simpa [ring] using h, List.nodup_nil⟩

theorem linked_unlink (h : L.Linked p q) (ha : L.Linked (L.prev r) r) (hr : L.Linked r (L.next r))
    (hp : p ≠ r) (hq : q ≠ r) : (L.unlink r).Linked p q := by
  constructor
  · rw [Links.unlink_next, Function.update_of_ne, h.1]
    intro h
    subst h
    exact hq (h.1.symm.trans ha.1)
  · rw [Links.unlink_prev, Function.update_of_ne hq, Function.update_of_ne, h.2]
    intro h
    subst h
    exact hp (h.2.symm.trans hr.2)

theorem insert (h : IsRing L xs) (hb : b ∉ xs) :
    IsRing (L.insert (.node b) .head) (b :: xs) := by
  obtain ⟨q, l, hq⟩ := exists_first_after xs
  have hnodup : (q :: l).Nodup := by
    rw [← hq, List.nodup_append]
    exact ⟨h.nodup.map (fun _ _ => by simp), by simp, by simp⟩
  have hchain : (Ptr.head :: q :: l).IsChain L.Linked := by
    have := h.chain
    rwa [ring, hq] at this
  have hhead : L.Linked .head q := hchain.rel_head? rfl
  have hbq : Ptr.node b ∉ q :: l := by
    rw [← hq]
    simpa using hb
  have hne : Ptr.node b ≠ q := fun e => hbq (by simp [e])
  refine ⟨?_, List.nodup_cons.mpr ⟨hb, h.nodup⟩⟩
  unfold ring
  rw [List.map_cons, List.cons_append, hq, List.isChain_cons_cons, List.isChain_cons_cons]
  refine ⟨⟨?_, ?_⟩, ⟨?_, ?_⟩, ?_⟩
  · simp [Links.insert_next]
  · simp [Links.insert_prev, hhead.1, Function.update_of_ne hne]
  · simp [Links.insert_next, hhead.1]
  · simp [Links.insert_prev, hhead.1]
  · apply hchain.tail.imp_of_mem_tail_imp
    intro x y hx hy hxy
    have hyq : y ≠ q := by
      intro h
      subst h
      exact (List.nodup_cons.mp hnodup).1 hy
    have hyb : y ≠ .node b := by
      intro h
      subst h
      exact hbq (List.mem_cons_of_mem _ hy)
    have hxb : x ≠ .node b := by
      intro h
      subst h
      exact hbq hx
    have hxh : x ≠ .head := by
      intro h
      subst h
      exact hyq (hxy.1.symm.trans hhead.1)
    constructor
    · rw [Links.insert_next, Function.update_of_ne hxh, Function.update_of_ne hxb, hxy.1]
    · rw [Links.insert_prev, hhead.1, Function.update_of_ne hyq, Function.update_of_ne hyb, hxy.2]

omit [DecidableEq α] in
theorem mirror (h : IsRing L xs) : IsRing L.mirror xs.reverse := by
  refine ⟨?_, List.nodup_reverse.mpr h.nodup⟩
  have hring : ring xs.reverse = (ring xs).reverse := by simp [ring]
  rw [hring, List.isChain_reverse]
  exact h.chain.imp fun p q hl => ⟨hl.2, hl.1⟩

theorem insertBefore (h : IsRing L xs) (hb : b ∉ xs) :
    IsRing (L.insertBefore (.node b) .head) (xs ++ [b]) := by
  have hmirror := (h.mirror.insert (b := b) (by simpa using hb)).mirror
  simpa [Links.insertBefore] using hmirror

theorem unlink (h : IsRing L xs) (ha : a ∈ xs) :
    IsRing (L.unlink (.node a)) (xs.filter (· ≠ a)) := by
  have hl : L.Linked (L.prev (.node a)) (.node a) := ⟨h.next_prev (mem_ring_node.mpr ha), rfl⟩
  have hr : L.Linked (.node a) (L.next (.node a)) := ⟨rfl, h.prev_next (mem_ring_node.mpr ha)⟩
  have hna := h.next_ne_self ha
  obtain ⟨as, bs, l₁, l₂, rfl, hleft, hright⟩ := h.around ha
  obtain ⟨has, hbs⟩ := split_ne h.nodup
  have hring : ring (as ++ bs) = (l₁ ++ [L.prev (.node a)]) ++ L.next (.node a) :: l₂ := by
    rw [← hleft, ← hright]
    simp [ring]
  have hchain := h.chain
  rw [ring_split, hleft, hright] at hchain
  have hleftMem : ∀ x ∈ l₁ ++ [L.prev (.node a)], x ≠ .node a := by
    rw [← hleft]
    intro x hx h
    subst h
    exact has a (by simpa using hx) rfl
  have hrightMem : ∀ x ∈ L.next (.node a) :: l₂, x ≠ .node a := by
    rw [← hright]
    intro x hx h
    subst h
    exact hbs a (by simpa using hx) rfl
  rw [filter_split h.nodup]
  refine ⟨?_, (List.Sublist.nodup (by simp) h.nodup : (as ++ bs).Nodup)⟩
  rw [hring]
  apply List.IsChain.append
  · exact hchain.left_of_append.imp_of_mem_imp fun x y hx hy hxy =>
      linked_unlink hxy hl hr (hleftMem x hx) (hleftMem y hy)
  · exact hchain.right_of_append.tail.imp_of_mem_imp fun x y hx hy hxy =>
      linked_unlink hxy hl hr (hrightMem x hx) (hrightMem y hy)
  · intro x hx y hy
    simp only [List.getLast?_append, List.getLast?_singleton, Option.some_or,
      Option.mem_def, Option.some.injEq, List.head?_cons] at hx hy
    subst hx hy
    constructor
    · rw [Links.unlink_next, Function.update_self]
    · rw [Links.unlink_prev, Function.update_of_ne hna, Function.update_self]

/-- The cell `a` is renamed to `b` all the way round. -/
theorem replace (h : IsRing L xs) (ha : a ∈ xs) (hb : b ∉ xs) :
    IsRing (L.replace (.node a) (.node b)) (rename a b xs) := by
  have hl : L.Linked (L.prev (.node a)) (.node a) := ⟨h.next_prev (mem_ring_node.mpr ha), rfl⟩
  have hr : L.Linked (.node a) (L.next (.node a)) := ⟨rfl, h.prev_next (mem_ring_node.mpr ha)⟩
  have hpa := h.prev_ne_self ha
  have hna := h.next_ne_self ha
  have hbRing : Ptr.node b ∉ ring xs := by simpa using hb
  have hpb : L.prev (.node a) ≠ .node b :=
    fun e => hbRing (e ▸ h.prev_mem (mem_ring_node.mpr ha))
  have hab : a ≠ b := fun e => hb (e ▸ ha)
  have hring : ring (rename a b xs) =
      (ring xs).map fun p => if p = .node a then .node b else p := by
    simp only [ring, rename, List.map_cons, List.map_append, List.map_map, List.map_nil,
      reduceCtorEq, if_false]
    congr 2
    apply List.map_congr_left
    intro x _
    by_cases hx : x = a <;> simp [hx]
  refine ⟨?_, ?_⟩
  · rw [hring, List.isChain_map]
    apply h.chain.imp_of_mem_imp
    intro x y hx hy hxy
    have hxb : x ≠ .node b := fun e => hbRing (e ▸ hx)
    have hyb : y ≠ .node b := fun e => hbRing (e ▸ hy)
    have hpx : L.prev (.node a) = x ↔ y = .node a :=
      ⟨fun e => by rw [← hxy.1, ← e, hl.1], fun e => by rw [← hxy.2, e]⟩
    have hny : L.next (.node a) = y ↔ x = .node a :=
      ⟨fun e => by rw [← hxy.2, ← e, hr.2], fun e => by rw [← hxy.1, e]⟩
    constructor
    · rw [Links.replace_next]
      by_cases hxa : x = .node a
      · have hya : y ≠ .node a := fun e => hpa (hpx.mpr e ▸ hxa ▸ rfl)
        simp [hxa, hya, Function.update_of_ne hpb.symm, hny.mpr hxa]
      · by_cases hya : y = .node a
        · simp [hya, ← hpx.mpr hya, hpa]
        · have hne : x ≠ L.prev (.node a) := fun e => hya (hpx.mp e.symm)
          simp [hxa, hya, Function.update_of_ne hne, Function.update_of_ne hxb, hxy.1]
    · rw [Links.replace_prev L hpb]
      by_cases hya : y = .node a
      · have hxa : x ≠ .node a := fun e => hpa (hpx.mpr hya ▸ e)
        have hbn : Ptr.node b ≠ L.next (.node a) :=
          fun e => hbRing (e ▸ h.next_mem (mem_ring_node.mpr ha))
        simp [hya, hxa, hab.symm, Function.update_of_ne hbn, hpx.mpr hya]
      · by_cases hxa : x = .node a
        · simp [hxa, ← hny.mpr hxa, hna]
        · have hne : y ≠ L.next (.node a) := fun e => hxa (hny.mp e.symm)
          simp [hxa, hya, Function.update_of_ne hne, Function.update_of_ne hyb,
            hxy.2]
  · refine List.Nodup.map_on ?_ h.nodup
    intro x hx y hy hxy
    by_cases hxa : x = a <;> by_cases hya : y = a <;> simp_all

/-! ### Frames

Cells off the ring keep both links, and what a forward link becomes is read off
what it was.
-/

omit [DecidableEq α] in
theorem prev_ne_of_not_mem (h : IsRing L xs) (ha : a ∈ xs) (hp : p ∉ ring xs) :
    p ≠ L.prev (.node a) := fun e => hp (e ▸ h.prev_mem (mem_ring_node.mpr ha))

omit [DecidableEq α] in
theorem next_ne_of_not_mem (h : IsRing L xs) (ha : a ∈ xs) (hp : p ∉ ring xs) :
    p ≠ L.next (.node a) := fun e => hp (e ▸ h.next_mem (mem_ring_node.mpr ha))

omit [DecidableEq α] in
theorem node_ne_of_not_mem (ha : a ∈ xs) (hp : p ∉ ring xs) : p ≠ .node a :=
  fun e => hp (e ▸ mem_ring_node.mpr ha)

theorem insert_off (h : IsRing L xs) (hp : p ∉ ring xs) (hpb : p ≠ .node b) :
    (L.insert (.node b) .head).next p = L.next p ∧
      (L.insert (.node b) .head).prev p = L.prev p := by
  have hph : p ≠ .head := fun e => hp (e ▸ mem_ring_head)
  have hpn : p ≠ L.next .head := fun e => hp (e ▸ h.next_mem mem_ring_head)
  rw [Links.insert_next, Links.insert_prev, Function.update_of_ne hph, Function.update_of_ne hpb,
    Function.update_of_ne hpn, Function.update_of_ne hpb]
  exact ⟨rfl, rfl⟩

theorem unlink_off (h : IsRing L xs) (ha : a ∈ xs) (hp : p ∉ ring xs) :
    (L.unlink (.node a)).next p = L.next p ∧ (L.unlink (.node a)).prev p = L.prev p := by
  rw [Links.unlink_next, Links.unlink_prev, Function.update_of_ne (h.prev_ne_of_not_mem ha hp),
    Function.update_of_ne (node_ne_of_not_mem ha hp),
    Function.update_of_ne (h.next_ne_of_not_mem ha hp)]
  exact ⟨rfl, rfl⟩

omit [DecidableEq α] in
theorem replace_prev_ne (h : IsRing L xs) (ha : a ∈ xs) (hb : b ∉ xs) :
    L.prev (.node a) ≠ .node b :=
  (h.prev_ne_of_not_mem ha (mt mem_ring_node.mp hb)).symm

theorem replace_off (h : IsRing L xs) (ha : a ∈ xs) (hb : b ∉ xs) (hp : p ∉ ring xs)
    (hpb : p ≠ .node b) :
    (L.replace (.node a) (.node b)).next p = L.next p ∧
      (L.replace (.node a) (.node b)).prev p = L.prev p := by
  rw [Links.replace_next, Links.replace_prev L (h.replace_prev_ne ha hb),
    Function.update_of_ne (h.prev_ne_of_not_mem ha hp), Function.update_of_ne hpb,
    Function.update_of_ne (node_ne_of_not_mem ha hp),
    Function.update_of_ne (h.next_ne_of_not_mem ha hp), Function.update_of_ne hpb]
  exact ⟨rfl, rfl⟩

theorem unlink_self (h : IsRing L xs) (ha : a ∈ xs) :
    (L.unlink (.node a)).next (.node a) = L.next (.node a) ∧
      (L.unlink (.node a)).prev (.node a) = .poison := by
  rw [Links.unlink_next, Links.unlink_prev, Function.update_of_ne (h.prev_ne_self ha).symm,
    Function.update_self]
  exact ⟨rfl, rfl⟩

theorem replace_self (h : IsRing L xs) (ha : a ∈ xs) (hb : b ∉ xs) :
    (L.replace (.node a) (.node b)).next (.node a) = L.next (.node a) ∧
      (L.replace (.node a) (.node b)).prev (.node a) = .poison := by
  have hab : Ptr.node a ≠ .node b := fun e => hb (Ptr.node.inj e ▸ ha)
  rw [Links.replace_next, Links.replace_prev L (h.replace_prev_ne ha hb),
    Function.update_of_ne (h.prev_ne_self ha).symm, Function.update_of_ne hab,
    Function.update_self]
  exact ⟨rfl, rfl⟩

end IsRing

/-! ## Rings in the order of a rank -/

section Ranked

variable {β : Type*} {L : Links β} {xs xs' as bs : List β} {r r' : β → Nat} {k : Nat} {x : β}

/-- A traversal that has passed the cells up to rank `k` and holds the link `p` has not gone past
any cell of `xs` that is still to come. -/
def Leads (r : β → Nat) (xs : List β) (k : Nat) (p : Ptr β) : Prop :=
  (p = .head ∧ ∀ z ∈ xs, r z ≤ k) ∨
    ∃ y, p = .node y ∧ k < r y ∧ ∀ z ∈ xs, k < r z → r y ≤ r z

theorem leads_front (hsorted : bs.Pairwise fun x y => r x < r y) (hbefore : ∀ x ∈ as, r x ≤ k)
    (hafter : ∀ y ∈ bs, k < r y) : Leads r (as ++ bs) k (front bs) := by
  cases bs with
  | nil => exact .inl ⟨rfl, by simpa using hbefore⟩
  | cons y bs =>
      refine .inr ⟨y, rfl, hafter y (by simp), ?_⟩
      intro z hz hk
      rcases List.mem_append.mp hz with hz | hz
      · have hle := hbefore z hz
        omega
      · rcases List.mem_cons.mp hz with rfl | hz
        · exact Nat.le_refl _
        · exact Nat.le_of_lt ((List.pairwise_cons.mp hsorted).1 z hz)

theorem IsRing.leads_head (h : IsRing L xs) (hsorted : xs.Pairwise fun x y => r x < r y)
    (hk : ∀ x ∈ xs, k < r x) : Leads r xs k (L.next .head) := by
  rw [h.next_head]
  have hbefore : ∀ x ∈ ([] : List β), r x ≤ k := by simp
  exact leads_front hsorted hbefore hk

theorem IsRing.leads_node (h : IsRing L xs) (hsorted : xs.Pairwise fun x y => r x < r y)
    (hx : x ∈ xs) : Leads r xs (r x) (L.next (.node x)) := by
  obtain ⟨as, bs, rfl⟩ := List.append_of_mem hx
  obtain ⟨-, hxbs, hcross⟩ := List.pairwise_append.mp hsorted
  obtain ⟨hafter, hbs⟩ := List.pairwise_cons.mp hxbs
  rw [h.next_node]
  have hsplit : as ++ x :: bs = (as ++ [x]) ++ bs := by simp
  rw [hsplit]
  refine leads_front hbs ?_ hafter
  intro z hz
  rcases List.mem_append.mp hz with hz | hz
  · exact Nat.le_of_lt (hcross z hz x (by simp))
  · rw [List.mem_singleton.mp hz]

/-- Cells may leave, or be replaced by cells of their rank. -/
theorem Leads.mono {p : Ptr β} (h : Leads r xs k p) (hxs : ∀ z' ∈ xs', ∃ z ∈ xs, r z = r' z')
    (hr : ∀ y, p = .node y → r' y = r y) : Leads r' xs' k p := by
  rcases h with ⟨hp, hall⟩ | ⟨y, hp, hk, hall⟩
  · refine .inl ⟨hp, fun z' hz' => ?_⟩
    obtain ⟨z, hz, heq⟩ := hxs z' hz'
    rw [← heq]
    exact hall z hz
  · refine .inr ⟨y, hp, by rw [hr y hp]; exact hk, fun z' hz' hlt => ?_⟩
    obtain ⟨z, hz, heq⟩ := hxs z' hz'
    rw [← heq] at hlt ⊢
    rw [hr y hp]
    exact hall z hz hlt

end Ranked

end KernelTrg.LinkRing
