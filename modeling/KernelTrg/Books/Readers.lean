import KernelTrg.Books.Lending

/-!
# Loads from freed objects

Inside its read-side critical section a call loads from objects that were linked when
the section began, and those outlive it. `is_borrowed_book` makes its last load after
`rcu_read_unlock`, where nothing keeps the object; `print_book` makes it before.
-/

namespace KernelTrg.Books

open LinkRing Runs

variable {cfg : Config} {s s' t : Sys} {a : Action} {xs xs' : List Addr}
  {ut ut' : Addr → Option Nat} {c : Nat} {f f' : Frame} {alloc : Bool} {b : Addr}

/-- The book object whose fields the next step of the call loads. -/
def Pc.loads : Pc → Option Addr
  | .walk (.node b) | .next b | .test b | .copy b _ | .replace b _ | .del b | .print b | .late b =>
      some b
  | _ => none

/-- No call is about to load a field of an object that has been freed. -/
def NoLoadAfterFree (s : Sys) : Prop := ∀ f ∈ s.frames, ∀ b ∈ f.pc.loads, b ∉ s.mem.freed

def Pc.freeing : Pc → Option Addr
  | .free b => some b
  | _ => none

def Sys.freeing (s : Sys) : Action → Option Addr
  | .run c _ => s.frames[c]?.bind fun f => f.pc.freeing
  | .callback i => s.callbacks[i]?.map Prod.fst
  | .call _ => none

/-- The object an action frees is not the one an `is_borrowed_book` call has left its
critical section with. -/
def LateLoadsDone (s : Sys) (a : Action) : Prop :=
  ∀ b ∈ s.freeing a, ∀ f ∈ s.frames, f.pc ≠ .late b

instance (s : Sys) (a : Action) : Decidable (LateLoadsDone s a) :=
  inferInstanceAs (Decidable (∀ b ∈ s.freeing a, ∀ f ∈ s.frames, f.pc ≠ .late b))

theorem Pc.reads_of_loads {pc : Pc} (h : pc.loads = some b) : b ∈ pc.reads ∨ pc = .late b := by
  cases pc with
  | walk p => cases p <;> simp_all [Pc.loads, Pc.reads]
  | _ => simp_all [Pc.loads, Pc.reads]

/-! ## One step -/

theorem Trans.freed (ht : Trans cfg s c f alloc t) :
    t.mem.freed = s.mem.freed ∨ ∃ b, f.pc = .free b ∧ t.mem.freed = b :: s.mem.freed := by
  cases ht with
  | free b hpc => exact .inr ⟨b, hpc, rfl⟩
  | _ => exact .inl rfl

theorem freed_step (hs : s.step cfg a = some s') (hb : b ∈ s'.mem.freed) :
    b ∈ s.mem.freed ∨ s.freeing a = some b := by
  rcases step_cases hs with ⟨op, -, rfl⟩ | ⟨c, al, f, t, rfl, hf, ht, rfl⟩ | ⟨i, x, r, rfl, hi, -, rfl⟩
  · exact .inl hb
  · change b ∈ t.mem.freed at hb
    rcases ht.freed with hfr | ⟨x, hpc, hfr⟩
    · exact .inl (hfr ▸ hb)
    · rw [hfr] at hb
      rcases List.mem_cons.mp hb with rfl | hb
      · exact .inr (by simp [Sys.freeing, hf, hpc, Pc.freeing])
      · exact .inl hb
  · rcases List.mem_cons.mp hb with rfl | hb
    · exact .inr (by simp [Sys.freeing, hi])
    · exact .inl hb

/-- A call comes to its late load from inside its critical section. -/
theorem Trans.late (ht : Trans cfg s c f alloc t) (hf : s.frames[c]? = some f)
    (hf' : t.frames[c]? = some f') (hpc : f'.pc = .late b) :
    f.pc = .found b ∧ t.mem.freed = s.mem.freed := by
  cases ht with
  | quiet g hl ha =>
      rw [eq_of_getElem?_set hf hf'] at hpc
      cases hl with
      | found x hx =>
          cases hpc
          exact ⟨hx, rfl⟩
      | hit x hx hid => cases hop : f.op <;> simp [Sys.hit, hop] at hpc
      | _ => cases hpc
  | acquire pc hfree hx =>
      rw [eq_of_getElem?_set hf hf'] at hpc
      rcases hx with ⟨-, -, rfl⟩ | ⟨x, newB, -, rfl⟩ | ⟨x, -, rfl⟩ <;> cases hpc
  | release pc hx =>
      rw [eq_of_getElem?_set hf hf'] at hpc
      rcases hx with ⟨x, -, rfl⟩ | ⟨-, rfl⟩ | ⟨-, -, rfl⟩
      · cases hdel : f.op.deletes <;> simp [hdel] at hpc
      · cases hpc
      · cases hpc
  | alloc pc ha hx =>
      rw [eq_of_getElem?_set hf hf'] at hpc
      rcases hx with ⟨id, name, author, -, -, rfl⟩ | ⟨x, -, rfl⟩ <;> cases hpc
  | _ =>
      rw [eq_of_getElem?_set hf hf'] at hpc
      cases hpc

def LateSafe (s : Sys) : Prop := ∀ f ∈ s.frames, ∀ b, f.pc = .late b → b ∉ s.mem.freed

theorem LateSafe.step (h : LateSafe s) (hcore : Core s xs ut) (htyped : Typed s)
    (hg : LateLoadsDone s a) (hs : s.step cfg a = some s') : LateSafe s' := by
  intro g hg' b hpc hfreed
  -- either the call was there before, or it has just left its section
  have hcase : (∃ g₀ ∈ s.frames, g₀.pc = .late b) ∨
      ∃ (c : Nat) (f : Frame), s.frames[c]? = some f ∧ f.pc = .found b ∧ s'.mem.freed = s.mem.freed := by
    obtain ⟨c', hc'⟩ := List.getElem?_of_mem hg'
    rcases step_cases hs with ⟨op, -, rfl⟩ | ⟨c, al, f, t, -, hf, ht, rfl⟩ | ⟨i, x, r, -, -, -, rfl⟩
    · rcases getElem?_snoc_cases hc' with hk | rfl
      · exact .inl ⟨g, List.mem_of_getElem? hk, hpc⟩
      · cases hpc
    · obtain ⟨f', hframes, -⟩ := ht.fits (htyped f (List.mem_of_getElem? hf))
      by_cases hc : c' = c
      · subst hc
        obtain ⟨hfound, hsame⟩ := Trans.late (t := t) ht hf hc' hpc
        exact .inr ⟨c', f, hf, hfound, hsame⟩
      · have hk : s.frames[c']? = some g := by
          simpa [Sys.tick, hframes, List.getElem?_set_ne (Ne.symm hc)] using hc'
        exact .inl ⟨g, List.mem_of_getElem? hk, hpc⟩
    · exact .inl ⟨g, hg', hpc⟩
  rcases hcase with ⟨g₀, hg₀, hpc₀⟩ | ⟨c, f, hf, hfound, hsame⟩
  · rcases freed_step hs hfreed with hold | hnew
    · exact h g₀ hg₀ b hpc₀ hold
    · exact hg b hnew g₀ hg₀ hpc₀
  · have hsafe := (hcore.frame c f hf).reads b (by simp [hfound, Pc.reads])
    exact hcore.not_freed hf hsafe (hsame ▸ hfreed)

theorem Core.loads_safe (h : Core s xs ut) (hl : LateSafe s) : NoLoadAfterFree s := by
  intro f hf b hb
  obtain ⟨c, hc⟩ := List.getElem?_of_mem hf
  rcases Pc.reads_of_loads hb with hr | hlate
  · exact h.not_freed hc ((h.frame c f hc).reads b hr)
  · exact hl f hf b hlate

/-! ## Every run -/

/-- No call loads from a freed object as long as replacements find the old object linked and no
object is freed between a call's `rcu_read_unlock` and its late load. -/
theorem no_load_after_free {m : Mem} (hm : Booted m xs) (ops : List Op) {as : List Action}
    (hg : Along (Sys.step cfg) (fun s a => ReplacesLinked cfg s a ∧ LateLoadsDone s a)
      (Sys.boot m ops) as)
    (hrun : exec (Sys.step cfg) (Sys.boot m ops) as = some s) : NoLoadAfterFree s := by
  have hboot : LateSafe (Sys.boot m ops) := by
    intro f hf b hpc
    obtain ⟨op, -, rfl⟩ := List.mem_map.mp hf
    cases hpc
  have hinv : (∃ xs ut, Sound s xs ut) ∧ LateSafe s := by
    refine exec_invariant (I := fun s => (∃ xs ut, Sound s xs ut) ∧ LateSafe s) ?_
      ⟨⟨xs, _, hm.sound ops⟩, hboot⟩ hg hrun
    intro s a t hall
    rcases hall with ⟨⟨xs, ut, h⟩, hl⟩
    intro h
    rcases h with ⟨hg, hlate⟩
    intro hs
    obtain ⟨xs', ut', h', -⟩ := h.step hg hs
    exact ⟨⟨xs', ut', h'⟩, hl.step h.core h.typed hlate hs⟩
  obtain ⟨⟨xs, ut, h⟩, hl⟩ := hinv
  exact h.core.loads_safe hl

/-- A reader finishes between the unlinking of its book and the freeing of it. -/
theorem reader_beats_free : ∃ s,
    exec (Sys.step ⟨false⟩) (Sys.boot oneBook [.isBorrowedBook 0, .deleteBook 0 false])
      (List.replicate 3 (.run 0 true) ++ List.replicate 4 (.run 1 true) ++
        List.replicate 2 (.run 0 true) ++ List.replicate 4 (.run 1 true)) = some s ∧
    s.frames.map Frame.pc = [.done (some 0), .done none] ∧ s.mem.freed = [0] ∧
    NoLoadAfterFree s := by
  obtain ⟨s, hs, hend⟩ := Option.map_eq_some_iff.mp (show (exec (Sys.step ⟨false⟩)
      (Sys.boot oneBook [.isBorrowedBook 0, .deleteBook 0 false])
      (List.replicate 3 (.run 0 true) ++ List.replicate 4 (.run 1 true) ++
        List.replicate 2 (.run 0 true) ++ List.replicate 4 (.run 1 true))).map
      (fun s => (s.frames.map Frame.pc, s.mem.freed)) =
      some ([.done (some 0), .done none], [0]) by decide)
  obtain ⟨hpc, hfreed⟩ := Prod.mk.inj hend
  exact ⟨s, hs, hpc, hfreed, no_load_after_free oneBook_booted _ (by decide) hs⟩

/-- `delete_book` frees the book after `is_borrowed_book` has left its critical section and before
it loads `b->borrow`. -/
theorem loads_after_free : ∃ as s,
    exec (Sys.step ⟨true⟩) (Sys.boot oneBook [.isBorrowedBook 0, .deleteBook 0 false]) as = some s ∧
    (∃ f ∈ s.frames, f.op = .isBorrowedBook 0 ∧ f.pc = .late 0) ∧ 0 ∈ s.mem.freed ∧
    ¬ NoLoadAfterFree s := by
  obtain ⟨s, hs, hend⟩ := Option.map_eq_some_iff.mp (show (exec (Sys.step ⟨true⟩)
      (Sys.boot oneBook [.isBorrowedBook 0, .deleteBook 0 false])
      (List.replicate 4 (.run 0 true) ++ List.replicate 8 (.run 1 true))).map
      (fun s => (s.frames, s.mem.freed)) =
      some ([⟨.isBorrowedBook 0, .late 0, none⟩, ⟨.deleteBook 0 false, .done none, none⟩], [0])
      by decide)
  obtain ⟨hframes, hfreed⟩ := Prod.mk.inj hend
  have hf : (⟨.isBorrowedBook 0, .late 0, none⟩ : Frame) ∈ s.frames := by simp [hframes]
  have hin : 0 ∈ s.mem.freed := by simp [hfreed]
  exact ⟨_, s, hs, ⟨_, hf, rfl, rfl⟩, hin, fun h => h _ hf 0 rfl hin⟩

end KernelTrg.Books
