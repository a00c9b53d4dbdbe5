import KernelTrg.Lib.LinkRing
import Mathlib.Data.List.Perm.Subperm

/-!
# The book list in memory

`struct book` objects, the list head `books` and the kernel list updates of
`list_rcu_example.c`. An address names one allocation for good: a freed object
keeps its address and is listed in `freed`, so that a later access to it can be
told from an access to a live one.
-/

namespace KernelTrg.Books

open LinkRing

abbrev Addr := Nat

/-- `struct book` without the embedded `node` and `rcu`; the links are in `Mem.links`. -/
structure Book where
  id : Int
  name : List UInt8
  author : List UInt8
  borrow : Int
deriving DecidableEq, Repr

def nameSize : Nat := 64

/-- What `kzalloc` leaves in the object. -/
def Book.zeroed : Book := ⟨0, List.replicate nameSize 0, List.replicate nameSize 0, 0⟩

/-- `strncpy(dest, src, n)` on a whole `n`-byte array: at most `n` bytes of the
string, then zeros up to the end. -/
def strncpy (n : Nat) (src : List UInt8) : List UInt8 :=
  let s := (src.takeWhile (· ≠ 0)).take n
  s ++ List.replicate (n - s.length) 0

theorem strncpy_length (n : Nat) (src : List UInt8) : (strncpy n src).length = n := by
  simp only [strncpy, List.length_append, List.length_replicate, List.length_take]
  omega

/-- `brk` counts the objects handed out so far and is the address of the next one. -/
structure Mem where
  links : Links Addr
  book : Addr → Book
  brk : Nat
  freed : List Addr

namespace Mem

def init : Mem where
  links := ⟨fun p => if p = .head then .head else .null, fun p => if p = .head then .head else .null⟩
  book := fun _ => Book.zeroed
  brk := 0
  freed := []

def Live (m : Mem) (b : Addr) : Prop := b < m.brk ∧ b ∉ m.freed

instance (m : Mem) (b : Addr) : Decidable (m.Live b) := inferInstanceAs (Decidable (_ ∧ _))

/-- A successful `kzalloc`; the object is at `m.brk`. -/
def kzalloc (m : Mem) : Mem :=
  { m with
    links := (m.links.setNext (.node m.brk) .null).setPrev (.node m.brk) .null
    book := Function.update m.book m.brk Book.zeroed
    brk := m.brk + 1 }

def setBook (m : Mem) (b : Addr) (v : Book) : Mem := { m with book := Function.update m.book b v }

/-- `memcpy(new_b, old_b, sizeof(struct book))`, link fields included. -/
def memcpy (m : Mem) (newB oldB : Addr) : Mem :=
  { m with
    links := (m.links.setNext (.node newB) (m.links.next (.node oldB))).setPrev (.node newB)
      (m.links.prev (.node oldB))
    book := Function.update m.book newB (m.book oldB) }

/-- `new_b->borrow = flag` -/
def setBorrow (m : Mem) (b : Addr) (flag : Int) : Mem :=
  m.setBook b { m.book b with borrow := flag }

/-- `list_add_rcu(&b->node, &books)` -/
def listAddRcu (m : Mem) (b : Addr) : Mem := { m with links := m.links.insert (.node b) .head }

/-- `list_replace_rcu(&old_b->node, &new_b->node)` -/
def listReplaceRcu (m : Mem) (oldB newB : Addr) : Mem :=
  { m with links := m.links.replace (.node oldB) (.node newB) }

/-- `list_del_rcu(&b->node)` -/
def listDelRcu (m : Mem) (b : Addr) : Mem := { m with links := m.links.unlink (.node b) }

def kfree (m : Mem) (b : Addr) : Mem := { m with freed := b :: m.freed }

/-- The objects from `p` on, in list order, as far as `fuel` reaches. -/
def collect (m : Mem) : Nat → Ptr Addr → List Addr
  | 0, _ => []
  | fuel + 1, .node b => b :: collect m fuel (m.links.next (.node b))
  | _ + 1, _ => []

def Reachable (m : Mem) (b : Addr) : Prop := ∃ n, m.links.next^[n] .head = .node b

def onList (m : Mem) : List Addr := m.collect m.brk (m.links.next .head)

/-- What the list shows: the fields of the linked books in list order. -/
def catalogue (m : Mem) : List Book := m.onList.map m.book

end Mem

/-! ## The two updaters -/

/-- `borrow_book` and `return_book` differ in the flag they refuse and the flag they store. -/
inductive Update where
  | borrow
  | giveBack
deriving DecidableEq, Repr

namespace Update

/-- `if(b->borrow) return -1;` in `borrow_book`, `if(!b->borrow) return -1;` in `return_book`. -/
def refuses : Update → Int → Bool
  | .borrow, flag => flag != 0
  | .giveBack, flag => flag == 0

def flag : Update → Int
  | .borrow => 1
  | .giveBack => 0

end Update

/-! ## Writes to an object that is not on the list -/

/-- `m'` differs from `m` at most in the object `b`, the allocation count aside. -/
structure AgreeOff (b : Addr) (m m' : Mem) : Prop where
  next : ∀ p, p ≠ .node b → m'.links.next p = m.links.next p
  prev : ∀ p, p ≠ .node b → m'.links.prev p = m.links.prev p
  book : ∀ a, a ≠ b → m'.book a = m.book a
  freed : m'.freed = m.freed
  brk : m.brk ≤ m'.brk

namespace AgreeOff

variable {m m' m'' : Mem} {b : Addr} {xs : List Addr}

theorem refl (b : Addr) (m : Mem) : AgreeOff b m m where
  next := fun _ _ => rfl
  prev := fun _ _ => rfl
  book := fun _ _ => rfl
  freed := rfl
  brk := Nat.le_refl _

theorem trans (h : AgreeOff b m m') (h' : AgreeOff b m' m'') : AgreeOff b m m'' where
  next := fun p hp => (h'.next p hp).trans (h.next p hp)
  prev := fun p hp => (h'.prev p hp).trans (h.prev p hp)
  book := fun a ha => (h'.book a ha).trans (h.book a ha)
  freed := h'.freed.trans h.freed
  brk := Nat.le_trans h.brk h'.brk

theorem kzalloc (m : Mem) : AgreeOff m.brk m m.kzalloc where
  next := fun _ hp => Function.update_of_ne hp ..
  prev := fun _ hp => Function.update_of_ne hp ..
  book := fun _ ha => Function.update_of_ne ha ..
  freed := rfl
  brk := Nat.le_succ _

theorem memcpy (m : Mem) (newB oldB : Addr) : AgreeOff newB m (m.memcpy newB oldB) where
  next := fun _ hp => Function.update_of_ne hp ..
  prev := fun _ hp => Function.update_of_ne hp ..
  book := fun _ ha => Function.update_of_ne ha ..
  freed := rfl
  brk := Nat.le_refl _

theorem setBook (m : Mem) (b : Addr) (v : Book) : AgreeOff b m (m.setBook b v) where
  next := fun _ _ => rfl
  prev := fun _ _ => rfl
  book := fun _ ha => Function.update_of_ne ha ..
  freed := rfl
  brk := Nat.le_refl _

theorem isRing (h : AgreeOff b m m') (hr : IsRing m.links xs) (hb : b ∉ xs) :
    IsRing m'.links xs := by
  apply hr.congr
  intro p hp
  have hne : p ≠ .node b := fun e => hb (mem_ring_node.mp (e ▸ hp))
  exact ⟨h.next p hne, h.prev p hne⟩

theorem live (h : AgreeOff b m m') {a : Addr} (ha : m.Live a) : m'.Live a :=
  ⟨Nat.lt_of_lt_of_le ha.1 h.brk, by rw [h.freed]; exact ha.2⟩

theorem map_book (h : AgreeOff b m m') (hb : b ∉ xs) : xs.map m'.book = xs.map m.book :=
  List.map_congr_left fun a ha => h.book a fun e => hb (e ▸ ha)

end AgreeOff

/-! ## Traversal of a well-formed list -/

theorem collect_suffix {m : Mem} (as : List Addr) {bs : List Addr}
    (h : IsRing m.links (as ++ bs)) (n : Nat) :
    m.collect (bs.length + n) (front bs) = bs := by
  induction bs generalizing as n with
  | nil => cases n <;> rfl
  | cons b bs ih =>
      have hsplit : IsRing m.links ((as ++ [b]) ++ bs) := by simpa using h
      rw [List.length_cons, Nat.add_right_comm]
      simp only [front, Mem.collect, List.cons.injEq, true_and]
      rw [h.next_node]
      exact ih (as ++ [b]) hsplit n

/-- With all listed objects allocated, the traversal of the model reaches every one of them. -/
theorem onList_eq {m : Mem} {xs : List Addr} (h : IsRing m.links xs) (hb : ∀ b ∈ xs, b < m.brk) :
    m.onList = xs := by
  have hlen : xs.length ≤ m.brk := by
    have hsub : xs ⊆ List.range m.brk := fun b hm => List.mem_range.mpr (hb b hm)
    simpa using (h.nodup.subperm hsub).length_le
  obtain ⟨n, hn⟩ := Nat.exists_eq_add_of_le hlen
  rw [Mem.onList, h.next_head, hn]
  exact collect_suffix [] h n

end KernelTrg.Books
