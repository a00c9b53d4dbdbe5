import Mathlib.Data.List.Basic

/-!
# Loops that act and may end

A loop takes one turn after another. A turn does something and may end the loop with a
status; a turn of which nothing is known leaves the loop unknown. What the turns do
changes a state, which is the same again at each pause and at the end where every turn
sees to that.
-/

namespace KernelTrg.Turns

variable {α β κ σ : Type} {turn : α → Option (List κ × Option Nat)} {acts : α → List κ}
  {goesOn : α → Bool} {as : List α} {after : σ → κ → σ} {pause : κ → Prop} {s : σ}
  {log log' last : List κ} {n : Nat}

/-- What the turns do, and the status that one of them ends the loop with. -/
def loop (turn : α → Option (List κ × Option Nat)) : List α → Option (List κ × Option Nat)
  | [] => some ([], none)
  | a :: as =>
      match turn a with
      | none => none
      | some (acts, some status) => some (acts, some status)
      | some (acts, none) => (loop turn as).map fun rest => (acts ++ rest.1, rest.2)

theorem loop_map (turn : α → Option (List κ × Option Nat)) (f : β → α) (bs : List β) :
    loop turn (bs.map f) = loop (fun b => turn (f b)) bs := by
  induction bs with
  | nil => rfl
  | cons b bs ih => rw [List.map_cons, loop, loop, ih]

/-- A loop that ends in one way only: it goes on up to the first turn that does not. -/
theorem loop_eq (hgo : ∀ a, goesOn a = true → turn a = some (acts a, none))
    (hend : ∀ a, goesOn a = false → turn a = some (last, some n)) (as : List α) :
    loop turn as =
      some ((as.takeWhile goesOn).flatMap acts ++ if as.all goesOn then [] else last,
        if as.all goesOn then none else some n) := by
  induction as with
  | nil => rfl
  | cons a as ih =>
      rw [loop]
      cases ha : goesOn a with
      | true => simp [hgo a ha, ih, ha]
      | false => simp [hend a ha, ha]

/-- The state is back where it was at each pause, and at the end. -/
def Home (after : σ → κ → σ) (pause : κ → Prop) (s : σ) (log : List κ) : Prop :=
  ∀ front back, log = front ++ back →
    (back = [] ∨ ∃ k, front.getLast? = some k ∧ pause k) → front.foldl after s = s

theorem Home.nil : Home after pause s [] := by
  intro front back hlog _
  rw [(List.nil_eq_append_iff.mp hlog).1]
  rfl

/-- A turn that pauses at most at its end. -/
theorem Home.of_quiet (hback : log.foldl after s = s) (hquiet : ∀ k ∈ log.dropLast, ¬pause k) :
    Home after pause s log := by
  intro front back hlog hend
  rcases List.eq_nil_or_concat' back with rfl | ⟨rest, last, rfl⟩
  · rw [← List.append_nil front, ← hlog]
    exact hback
  · rcases hend with hnil | ⟨k, hk, hpause⟩
    · exact absurd hnil (List.concat_ne_nil last rest)
    · have hmem : k ∈ log.dropLast := by
        rw [hlog, ← List.append_assoc, List.dropLast_concat]
        exact List.mem_append_left rest (List.mem_of_getLast? hk)
      exact absurd hpause (hquiet k hmem)

theorem Home.append (h : Home after pause s log) (h' : Home after pause s log') :
    Home after pause s (log ++ log') := by
  intro front back hsplit hend
  rcases List.append_eq_append_iff.mp hsplit with ⟨rest, rfl, hrest⟩ | ⟨rest, rfl, rfl⟩
  · rw [List.foldl_append, h log [] (List.append_nil log).symm (.inl rfl)]
    cases rest with
    | nil => rfl
    | cons k rest =>
        refine h' _ back hrest (hend.imp_right fun hpause => ?_)
        rcases hpause with ⟨k', hlast, hpause⟩
        exact ⟨k', by simpa using hlast, hpause⟩
  · exact h front rest rfl (hend.imp_left fun hnil => (List.append_eq_nil_iff.mp hnil).1)

theorem Home.flatMap (h : ∀ a ∈ as, Home after pause s (acts a)) :
    Home after pause s (as.flatMap acts) := by
  induction as with
  | nil => exact .nil
  | cons a as ih =>
      rw [List.flatMap_cons]
      exact (h a List.mem_cons_self).append (ih fun b hb => h b (List.mem_cons_of_mem a hb))

end KernelTrg.Turns
