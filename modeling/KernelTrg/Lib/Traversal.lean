import KernelTrg.Lib.LinkRing

/-!
# What a traversal in progress will still come to

A traversal holds a pointer and follows forward links while others update the ring.
`Ahead` says that it comes to a cell with a property if nothing changes from now on.
An insertion at the front and a replacement by a cell with the property do not take
that away, and an unlinking takes it away only with the last such cell of the ring,
provided that the first one is unlinked. `Span` counts the cells still to come; no
update makes them more.
-/

namespace KernelTrg.LinkRing

/-- The forward links lead from the pointer to a cell with `P`, before the sentinel. -/
inductive Ahead {α : Type*} (L : Links α) (P : α → Prop) : Ptr α → Prop where
  | here (a : α) (h : P a) : Ahead L P (.node a)
  | later (a : α) (h : Ahead L P (L.next (.node a))) : Ahead L P (.node a)

/-- The forward links lead from the pointer to the sentinel past `n` cells. -/
inductive Span {α : Type*} (L : Links α) : Ptr α → Nat → Prop where
  | stop : Span L .head 0
  | past (a : α) (n : Nat) (h : Span L (L.next (.node a)) n) : Span L (.node a) (n + 1)

section Links

variable {α : Type*} {L L' : Links α} {P P' : α → Prop} {a : α} {p : Ptr α} {as bs : List α}

theorem not_ahead_head : ¬ Ahead L P .head := fun h => by cases h

theorem Ahead.next (h : Ahead L P (.node a)) (ha : ¬ P a) : Ahead L P (L.next (.node a)) := by
  cases h with
  | here _ h => exact absurd h ha
  | later _ h => exact h

theorem IsRing.ahead_front (h : IsRing L (as ++ bs)) (hex : ∃ x ∈ bs, P x) :
    Ahead L P (front bs) := by
  induction bs generalizing as with
  | nil =>
      obtain ⟨x, hx, -⟩ := hex
      cases hx
  | cons b bs ih =>
      obtain ⟨x, hx, hP⟩ := hex
      rcases List.mem_cons.mp hx with rfl | hx
      · exact .here x hP
      · have hsplit : IsRing L ((as ++ [b]) ++ bs) := by simpa using h
        have hrest : Ahead L P (front bs) := ih hsplit ⟨x, hx, hP⟩
        rw [← h.next_node] at hrest
        exact .later b hrest

/-- The cells `K` the traversal can come to keep the property, and each leads where it led before
or past one cell from which nothing is lost. -/
theorem Ahead.mono (K : α → Prop) (h : Ahead L P p) (hp : ∀ a, p = .node a → K a)
    (hK : ∀ a b, K a → L.next (.node a) = .node b → K b) (hP : ∀ a, K a → P a → P' a)
    (hnext : ∀ a, K a → L'.next (.node a) = L.next (.node a) ∨
      ∃ b, L.next (.node a) = .node b ∧
        (Ahead L' P' (.node b) → Ahead L' P' (L'.next (.node a)))) :
    Ahead L' P' p := by
  induction h with
  | here a ha => exact .here a (hP a (hp a rfl) ha)
  | later a _ ih =>
      have ha : K a := hp a rfl
      have hrest : Ahead L' P' (L.next (.node a)) := ih fun b hb => hK a b ha hb
      rcases hnext a ha with hsame | ⟨b, hb, hpast⟩
      · rw [← hsame] at hrest
        exact .later a hrest
      · rw [hb] at hrest
        exact .later a (hpast hrest)

theorem Span.next {n : Nat} (h : Span L (.node a) n) :
    ∃ k, n = k + 1 ∧ Span L (L.next (.node a)) k := by
  cases h with
  | past _ k h => exact ⟨k, rfl, h⟩

theorem IsRing.span_front (h : IsRing L (as ++ bs)) : Span L (front bs) bs.length := by
  induction bs generalizing as with
  | nil => exact .stop
  | cons b bs ih =>
      have hsplit : IsRing L ((as ++ [b]) ++ bs) := by simpa using h
      have hrest : Span L (front bs) bs.length := ih hsplit
      rw [← h.next_node] at hrest
      exact .past b bs.length hrest

/-- Each cell `K` leads where it led before or past one cell from which the way is no longer. -/
theorem Span.mono (K : α → Prop) {n : Nat} (h : Span L p n) (hp : ∀ a, p = .node a → K a)
    (hK : ∀ a b, K a → L.next (.node a) = .node b → K b)
    (hnext : ∀ a, K a → L'.next (.node a) = L.next (.node a) ∨
      ∃ b, L.next (.node a) = .node b ∧
        ∀ n, Span L' (.node b) n → ∃ m ≤ n, Span L' (L'.next (.node a)) m) :
    ∃ m ≤ n, Span L' p m := by
  induction h with
  | stop => exact ⟨0, Nat.le_refl _, .stop⟩
  | past a n _ ih =>
      have ha : K a := hp a rfl
      obtain ⟨m, hm, hrest⟩ := ih fun b hb => hK a b ha hb
      rcases hnext a ha with hsame | ⟨b, hb, hpast⟩
      · rw [← hsame] at hrest
        exact ⟨m + 1, Nat.succ_le_succ hm, .past a m hrest⟩
      · rw [hb] at hrest
        obtain ⟨k, hk, hspan⟩ := hpast m hrest
        exact ⟨k + 1, Nat.succ_le_succ (Nat.le_trans hk hm), .past a k hspan⟩

end Links

/-! ## Updates of the ring -/

section Updates

variable {α : Type*} [DecidableEq α] {L : Links α} {P P' : α → Prop} {K : α → Prop} {a b : α}
  {p : Ptr α} {as bs xs : List α}

/-- The cell put in the place of another leads where that one leads. -/
theorem IsRing.replace_copy (h : IsRing L xs) (ha : a ∈ xs) (hb : b ∉ xs) :
    (L.replace (.node a) (.node b)).next (.node b) = L.next (.node a) := by
  rw [Links.replace_next, Function.update_of_ne (h.replace_prev_ne ha hb).symm,
    Function.update_self]

theorem Ahead.insert (h : Ahead L P p) (hp : ∀ a, p = .node a → K a)
    (hK : ∀ a b, K a → L.next (.node a) = .node b → K b) (hP : ∀ a, K a → P a → P' a)
    (hb : ¬ K b) : Ahead (L.insert (.node b) .head) P' p := by
  refine h.mono K hp hK hP fun a ha => .inl ?_
  have hab : Ptr.node a ≠ .node b := fun e => hb (Ptr.node.inj e ▸ ha)
  rw [Links.insert_next, Function.update_of_ne (by simp), Function.update_of_ne hab]

theorem Ahead.replace (h : Ahead L P p) (hring : IsRing L xs) (ha : a ∈ xs) (hb : b ∉ xs)
    (hp : ∀ a, p = .node a → K a) (hK : ∀ a b, K a → L.next (.node a) = .node b → K b)
    (hP : ∀ a, K a → P a → P' a) (hKb : ¬ K b) (hPb : P' a → P' b) :
    Ahead (L.replace (.node a) (.node b)) P' p := by
  have hself : (L.replace (.node a) (.node b)).next (.node a) = L.next (.node a) :=
    (hring.replace_self ha hb).1
  refine h.mono K hp hK hP fun x hx => ?_
  have hxb : Ptr.node x ≠ .node b := fun e => hKb (Ptr.node.inj e ▸ hx)
  by_cases hprev : Ptr.node x = L.prev (.node a)
  · right
    refine ⟨a, by rw [hprev, hring.next_prev (mem_ring_node.mpr ha)], fun hahead => ?_⟩
    have hx' : (L.replace (.node a) (.node b)).next (.node x) = .node b := by
      rw [Links.replace_next, hprev, Function.update_self]
    rw [hx']
    cases hahead with
    | here _ h => exact .here b (hPb h)
    | later _ h =>
        rw [hself, ← hring.replace_copy ha hb] at h
        exact .later b h
  · left
    rw [Links.replace_next, Function.update_of_ne hprev, Function.update_of_ne hxb]

theorem Ahead.unlink (h : Ahead L P p) (hring : IsRing L (as ++ a :: bs))
    (hp : ∀ a, p = .node a → K a) (hK : ∀ a b, K a → L.next (.node a) = .node b → K b)
    (hP : ∀ a, K a → P a → P' a) (hrest : P' a → ∃ x ∈ bs, P' x) :
    Ahead (L.unlink (.node a)) P' p := by
  have ha : a ∈ as ++ a :: bs := by simp
  have hself : (L.unlink (.node a)).next (.node a) = L.next (.node a) := (hring.unlink_self ha).1
  have hunlinked : IsRing (L.unlink (.node a)) (as ++ bs) := by
    have hring' := hring.unlink ha
    rwa [filter_split hring.nodup] at hring'
  refine h.mono K hp hK hP fun x hx => ?_
  by_cases hprev : Ptr.node x = L.prev (.node a)
  · right
    refine ⟨a, by rw [hprev, hring.next_prev (mem_ring_node.mpr ha)], fun hahead => ?_⟩
    have hx' : (L.unlink (.node a)).next (.node x) = L.next (.node a) := by
      rw [Links.unlink_next, hprev, Function.update_self]
    rw [hx']
    cases hahead with
    | here _ h =>
        rw [hring.next_node]
        exact hunlinked.ahead_front (hrest h)
    | later _ h => rwa [hself] at h
  · left
    rw [Links.unlink_next, Function.update_of_ne hprev]

theorem Span.insert {n : Nat} (h : Span L p n) (hp : ∀ a, p = .node a → K a)
    (hK : ∀ a b, K a → L.next (.node a) = .node b → K b) (hb : ¬ K b) :
    ∃ m ≤ n, Span (L.insert (.node b) .head) p m := by
  refine h.mono K hp hK fun a ha => .inl ?_
  have hab : Ptr.node a ≠ .node b := fun e => hb (Ptr.node.inj e ▸ ha)
  rw [Links.insert_next, Function.update_of_ne (by simp), Function.update_of_ne hab]

theorem Span.replace {n : Nat} (h : Span L p n) (hring : IsRing L xs) (ha : a ∈ xs) (hb : b ∉ xs)
    (hp : ∀ a, p = .node a → K a) (hK : ∀ a b, K a → L.next (.node a) = .node b → K b)
    (hKb : ¬ K b) : ∃ m ≤ n, Span (L.replace (.node a) (.node b)) p m := by
  refine h.mono K hp hK fun x hx => ?_
  have hxb : Ptr.node x ≠ .node b := fun e => hKb (Ptr.node.inj e ▸ hx)
  by_cases hprev : Ptr.node x = L.prev (.node a)
  · right
    refine ⟨a, by rw [hprev, hring.next_prev (mem_ring_node.mpr ha)], fun n hspan => ?_⟩
    have hx' : (L.replace (.node a) (.node b)).next (.node x) = .node b := by
      rw [Links.replace_next, hprev, Function.update_self]
    obtain ⟨k, rfl, hrest⟩ := hspan.next
    rw [(hring.replace_self ha hb).1, ← hring.replace_copy ha hb] at hrest
    rw [hx']
    exact ⟨k + 1, Nat.le_refl _, .past b k hrest⟩
  · left
    rw [Links.replace_next, Function.update_of_ne hprev, Function.update_of_ne hxb]

theorem Span.unlink {n : Nat} (h : Span L p n) (hring : IsRing L xs) (ha : a ∈ xs)
    (hp : ∀ a, p = .node a → K a) (hK : ∀ a b, K a → L.next (.node a) = .node b → K b) :
    ∃ m ≤ n, Span (L.unlink (.node a)) p m := by
  refine h.mono K hp hK fun x hx => ?_
  by_cases hprev : Ptr.node x = L.prev (.node a)
  · right
    refine ⟨a, by rw [hprev, hring.next_prev (mem_ring_node.mpr ha)], fun n hspan => ?_⟩
    have hx' : (L.unlink (.node a)).next (.node x) = L.next (.node a) := by
      rw [Links.unlink_next, hprev, Function.update_self]
    obtain ⟨k, rfl, hrest⟩ := hspan.next
    rw [(hring.unlink_self ha).1] at hrest
    rw [hx']
    exact ⟨k, Nat.le_succ _, hrest⟩
  · left
    rw [Links.unlink_next, Function.update_of_ne hprev]

end Updates

end KernelTrg.LinkRing
