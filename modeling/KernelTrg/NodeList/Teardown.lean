import KernelTrg.NodeList.Nodes

/-!
# Freeing the list

The loop of `freelist` frees a node and then reads the link of that node to get on.
What a freed node reads as is a parameter: the loop is clean for none, and gets through
the list where freed memory happens to keep its content.
-/

namespace KernelTrg.NodeList

open LinkRing

/-- What `freelist` leaves: the nodes it freed, the last one first, the nodes it read after
they were freed, and whether it followed a link to no node at all. -/
structure Teardown where
  freed : List Addr
  lateReads : List Addr
  faulted : Bool
deriving DecidableEq, Repr

variable (stale : List Addr → Addr → Ptr Addr)

/-- `list_for_each_entry(curr, &head_node, list) kfree(curr);` from `curr` on; the link of a
freed node reads as `stale`. -/
def freeNodes : Nat → Mem → Ptr Addr → List Addr → Option Teardown
  | 0, _, _, _ => none
  | _ + 1, m, .head, lateReads => some ⟨m.freed, lateReads, false⟩
  | fuel + 1, m, .node curr, lateReads =>
      let m := m.kfree curr
      -- the step of the loop comes after its body
      if curr ∈ m.freed then freeNodes fuel m (stale m.freed curr) (lateReads ++ [curr])
      else freeNodes fuel m (m.links.next (.node curr)) lateReads
  | _ + 1, m, _, lateReads => some ⟨m.freed, lateReads, true⟩

def freelist (fuel : Nat) (m : Mem) : Option Teardown :=
  if m.links.next .head = .head then some ⟨m.freed, [], false⟩
  else freeNodes stale fuel m (m.links.next .head) []

/-- Every node of the list is freed exactly once, and none is read after that. -/
structure Clean (m : Mem) (t : Teardown) : Prop where
  ended : t.faulted = false
  once : ∃ xs, IsRing m.links xs ∧ t.freed.Perm xs
  noLateRead : t.lateReads = []

variable {stale} {m : Mem} {nodes : List Node} {t : Teardown} {fuel : Nat} {p : Ptr Addr}
  {lateReads : List Addr}

theorem freeNodes_cons (stale : List Addr → Addr → Ptr Addr) (fuel : Nat) (m : Mem)
    (curr : Addr) (lateReads : List Addr) :
    freeNodes stale (fuel + 1) m (.node curr) lateReads =
      freeNodes stale fuel (m.kfree curr) (stale (curr :: m.freed) curr) (lateReads ++ [curr]) := by
  simp [freeNodes, Mem.kfree]

theorem freeNodes_lateReads (h : freeNodes stale fuel m p lateReads = some t) :
    lateReads <+: t.lateReads := by
  induction fuel generalizing m p lateReads with
  | zero => cases h
  | succ fuel ih =>
      cases p with
      | node curr =>
          rw [freeNodes_cons] at h
          exact (List.prefix_append _ _).trans (ih h)
      | head | null | poison =>
          cases h
          exact List.prefix_refl _

theorem freelist_lateRead (h : Built m nodes) (hnodes : nodes ≠ [])
    (hrun : freelist stale fuel m = some t) : t.lateReads ≠ [] := by
  obtain ⟨n, hn⟩ : ∃ n, m.brk = n + 1 := by
    refine Nat.exists_eq_succ_of_ne_zero fun hzero => hnodes ?_
    rw [← h.holds, hzero]
    rfl
  have hfront : m.links.next .head = .node 0 := by
    rw [h.ring.next_head, hn, List.range_succ_eq_map]
    rfl
  rw [freelist, hfront, if_neg (by simp)] at hrun
  cases fuel with
  | zero => cases hrun
  | succ fuel =>
      rw [freeNodes_cons] at hrun
      exact List.ne_nil_of_mem (a := 0) ((freeNodes_lateReads hrun).mem (by simp))

/-- `freelist` is clean exactly on the empty list, that is, where no allocation succeeded. -/
theorem freelist_clean_iff (stale : List Addr → Addr → Ptr Addr) (calls : List Add) :
    (∃ fuel t, freelist stale fuel (addAll Mem.init calls) = some t ∧
      Clean (addAll Mem.init calls) t) ↔ ∀ a ∈ calls, a.alloc = false := by
  have hbuilt := built_init.addAll calls
  rw [List.nil_append] at hbuilt
  have hempty : added calls = [] ↔ ∀ a ∈ calls, a.alloc = false := by simp [added]
  rw [← hempty]
  constructor
  · intro h
    rcases h with ⟨fuel, t, hrun, hclean⟩
    by_contra hnodes
    exact freelist_lateRead hbuilt hnodes hrun hclean.noLateRead
  · intro hnodes
    rw [hnodes] at hbuilt
    have hrange : List.range (addAll Mem.init calls).brk = [] := List.map_eq_nil_iff.mp hbuilt.holds
    have hring := hbuilt.ring
    rw [hrange] at hring
    refine ⟨0, ⟨[], [], false⟩, ?_, rfl, ⟨[], hring, .refl _⟩, rfl⟩
    have hhead : (addAll Mem.init calls).links.next .head = .head := hring.next_head
    unfold freelist
    rw [if_pos hhead, hbuilt.freed]

/-! ## Freed memory that keeps its content -/

theorem freeNodes_intact (as : List Addr) {bs : List Addr} (hring : IsRing m.links (as ++ bs)) :
    freeNodes (fun _ b => m.links.next (.node b)) (bs.length + 1) { m with freed := as.reverse }
      (front bs) as = some ⟨(as ++ bs).reverse, as ++ bs, false⟩ := by
  induction bs generalizing as with
  | nil => simp [freeNodes, front]
  | cons b bs ih =>
      have hnext : m.links.next (.node b) = front bs := hring.next_node
      have hrec := ih (as ++ [b]) (by simpa using hring)
      unfold front
      rw [List.length_cons, freeNodes_cons, hnext]
      simpa [Mem.kfree] using hrec

/-- Where freed memory keeps its content, every node is freed once, and every one is read
after that. -/
theorem freelist_intact (calls : List Add) :
    ∃ fuel t, freelist (fun _ b => (addAll Mem.init calls).links.next (.node b)) fuel
        (addAll Mem.init calls) = some t ∧ t.faulted = false ∧
      t.lateReads = List.range (addAll Mem.init calls).brk ∧
      IsRing (addAll Mem.init calls).links t.lateReads ∧ t.freed.Perm t.lateReads := by
  have hbuilt := built_init.addAll calls
  generalize addAll Mem.init calls = m at hbuilt ⊢
  refine ⟨(List.range m.brk).length + 1, ⟨(List.range m.brk).reverse, List.range m.brk, false⟩,
    ?_, rfl, rfl, hbuilt.ring, List.reverse_perm _⟩
  have hring := hbuilt.ring
  unfold freelist
  rw [hring.next_head]
  cases hxs : List.range m.brk with
  | nil => simp [front, hbuilt.freed]
  | cons b bs =>
      rw [hxs] at hring
      have hsame : { m with freed := ([] : List Addr).reverse } = m := by
        rw [List.reverse_nil, ← hbuilt.freed]
      have hrun := freeNodes_intact [] hring
      rw [hsame] at hrun
      rw [if_neg (by simp [front])]
      exact hrun

/-- A list of one node: its link is read after `kfree`, and where that reads as poison the
loop follows it. -/
theorem freelist_reads_freed :
    (∃ t, freelist (fun _ _ => .poison) 3 (addAll Mem.init [⟨1, 2, 108, true⟩]) = some t ∧
      t.freed = [0] ∧ t.lateReads = [0] ∧ t.faulted = true) ∧
    ∀ stale fuel t, freelist stale fuel (addAll Mem.init [⟨1, 2, 108, true⟩]) = some t →
      ¬Clean (addAll Mem.init [⟨1, 2, 108, true⟩]) t := by
  constructor
  · exact ⟨⟨[0], [0], true⟩, by decide, rfl, rfl, rfl⟩
  · intro stale fuel t hrun hclean
    exact freelist_lateRead (built_init.addAll [⟨1, 2, 108, true⟩]) (by decide) hrun
      hclean.noLateRead

end KernelTrg.NodeList
