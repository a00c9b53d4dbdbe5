import KernelTrg.Lib.LinkRing

/-!
# The list of nodes

`add2tail` of the list module: an allocation that may fail, and the node linked in
before the head. An address names one allocation for good, counted from 0, so that the
list built by any calls is the list of the allocations in their order.
-/

namespace KernelTrg.NodeList

open LinkRing

abbrev Addr := Nat

/-- `struct node` without the embedded `list`; the links are in `Mem.links`. -/
structure Node where
  ival1 : Int32
  ival2 : Int32
  letter : Int8
deriving DecidableEq, Repr

/-- `brk` counts the nodes allocated so far and is the address of the next one; `freed` has
the addresses given to `kfree`, the last one first. -/
structure Mem where
  links : Links Addr
  node : Addr → Node
  brk : Nat
  freed : List Addr

namespace Mem

def init : Mem where
  links := ⟨fun p => if p = .head then .head else .null,
    fun p => if p = .head then .head else .null⟩
  node := fun _ => ⟨0, 0, 0⟩
  brk := 0
  freed := []

/-- A successful `kzalloc`; the node is at `m.brk`. -/
def kzalloc (m : Mem) : Mem :=
  { m with
    links := (m.links.setNext (.node m.brk) .null).setPrev (.node m.brk) .null
    node := Function.update m.node m.brk ⟨0, 0, 0⟩
    brk := m.brk + 1 }

def setNode (m : Mem) (b : Addr) (v : Node) : Mem := { m with node := Function.update m.node b v }

/-- `INIT_LIST_HEAD(&b->list)` -/
def initListHead (m : Mem) (b : Addr) : Mem :=
  { m with links := (m.links.setNext (.node b) (.node b)).setPrev (.node b) (.node b) }

/-- `list_add_tail(&b->list, &head_node)` -/
def listAddTail (m : Mem) (b : Addr) : Mem :=
  { m with links := m.links.insertBefore (.node b) .head }

def kfree (m : Mem) (b : Addr) : Mem := { m with freed := b :: m.freed }

end Mem

abbrev enomem : Int32 := 12

/-- `alloc` is whether `kzalloc` succeeds. -/
def add2tail (m : Mem) (v1 v2 : Int32) (achar : Int8) (alloc : Bool) : Mem × Int32 :=
  if alloc then
    let mynode := m.brk
    let m := m.kzalloc
    let m := m.setNode mynode ⟨v1, v2, achar⟩
    let m := m.initListHead mynode
    (m.listAddTail mynode, 0)
  else (m, -enomem)

structure Add where
  v1 : Int32
  v2 : Int32
  achar : Int8
  alloc : Bool
deriving DecidableEq, Repr

def addAll (m : Mem) : List Add → Mem
  | [] => m
  | a :: calls => addAll (add2tail m a.v1 a.v2 a.achar a.alloc).1 calls

/-! ## The list that is built -/

def added (calls : List Add) : List Node :=
  (calls.filter (·.alloc)).map fun a => ⟨a.v1, a.v2, a.achar⟩

/-- The list is that of the allocations in order, none of them freed, and holds `nodes`. -/
structure Built (m : Mem) (nodes : List Node) : Prop where
  ring : IsRing m.links (List.range m.brk)
  holds : (List.range m.brk).map m.node = nodes
  freed : m.freed = []

theorem built_init : Built Mem.init [] := ⟨IsRing.empty ⟨rfl, rfl⟩, rfl, rfl⟩

variable {m : Mem} {nodes : List Node}

theorem Built.fresh_ring (h : Built m nodes) (v : Node) :
    IsRing ((m.kzalloc.setNode m.brk v).initListHead m.brk).links (List.range m.brk) := by
  apply h.ring.congr
  intro p hp
  have hne : p ≠ .node m.brk := by
    intro h
    subst h
    simp at hp
  constructor
  · simp [Mem.initListHead, Mem.setNode, Mem.kzalloc, Links.setNext, Links.setPrev,
      Function.update_of_ne hne]
  · simp [Mem.initListHead, Mem.setNode, Mem.kzalloc, Links.setNext, Links.setPrev,
      Function.update_of_ne hne]

/-- A call appends its node, or fails and changes nothing. -/
theorem Built.add2tail (h : Built m nodes) (a : Add) :
    Built (NodeList.add2tail m a.v1 a.v2 a.achar a.alloc).1 (nodes ++ added [a]) := by
  cases halloc : a.alloc with
  | false => simpa [NodeList.add2tail, added, halloc] using h
  | true =>
      have hadded : added [a] = [⟨a.v1, a.v2, a.achar⟩] := by simp [added, halloc]
      rw [hadded]
      refine ⟨?_, ?_, h.freed⟩
      · have hring := (h.fresh_ring ⟨a.v1, a.v2, a.achar⟩).insertBefore (b := m.brk) (by simp)
        rw [← List.range_succ] at hring
        exact hring
      · have hnew : (NodeList.add2tail m a.v1 a.v2 a.achar true).1.node =
            Function.update (Function.update m.node m.brk ⟨0, 0, 0⟩) m.brk
              ⟨a.v1, a.v2, a.achar⟩ := rfl
        have hbrk : (NodeList.add2tail m a.v1 a.v2 a.achar true).1.brk = m.brk + 1 := rfl
        rw [hnew, hbrk, List.range_succ, List.map_append, ← h.holds]
        congr 1
        · apply List.map_congr_left
          intro b hb
          have hne : b ≠ m.brk := Nat.ne_of_lt (List.mem_range.mp hb)
          rw [Function.update_of_ne hne, Function.update_of_ne hne]
        · simp

theorem Built.addAll (h : Built m nodes) (calls : List Add) :
    Built (NodeList.addAll m calls) (nodes ++ added calls) := by
  induction calls generalizing m nodes with
  | nil => simpa [added, NodeList.addAll] using h
  | cons a calls ih =>
      have hsplit : added (a :: calls) = added [a] ++ added calls := by
        simp only [added, ← List.map_append, ← List.filter_append, List.singleton_append]
      rw [hsplit, ← List.append_assoc]
      exact ih (h.add2tail a)

end KernelTrg.NodeList
