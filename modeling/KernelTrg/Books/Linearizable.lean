import KernelTrg.Books.Entries
import KernelTrg.Lib.Linearize

/-!
# Concurrent calls are as if one after the other

A call that changes the list does so in one step, and what it does there is its abstract
operation. A call that changes nothing has its result from the list of one time within
the call. So the calls of a run, in the order of these times, are a sequential run with
the same results, and a call comes before every one that began when it was over.
-/

namespace KernelTrg.Books

open LinkRing Runs Linearize

/-! ## The times of a call -/

def CommitsAt (cfg : Config) (s₀ : Sys) (as : List Action) (c t : Nat) : Prop :=
  ∃ alloc s g, as[t]? = some (.run c alloc) ∧
    exec (Sys.step cfg) s₀ (as.take (t + 1)) = some s ∧ s.frames[c]? = some g ∧
    g.pc.committed = true

/-- At some time of the run a `kzalloc` of call `c` failed. -/
def OutOfMemory (cfg : Config) (s₀ : Sys) (as : List Action) (c : Nat) : Prop :=
  ∃ front m f, front ++ [.run c false] <+: as ∧ exec (Sys.step cfg) s₀ front = some m ∧
    m.frames[c]? = some f ∧ (f.pc = .start ∧ f.op.adds = true ∨ ∃ b, f.pc = .alloc b)

def Pc.returned : Pc → Option (Option Int)
  | .done r => some r
  | _ => none

def Sys.returned (s : Sys) (c : Nat) : Option (Option Int) :=
  s.frames[c]?.bind fun f => f.pc.returned

/-- Call `c` was over at a time when call `c'` had not begun. -/
def Precedes (cfg : Config) (s₀ : Sys) (as : List Action) (c c' : Nat) : Prop :=
  Once (Sys.step cfg) s₀ as fun m => m.returned c ≠ none ∧ m.frames[c']? = none

/-- The call has changed the list, and what is left of it does not change it any more. -/
def Pc.past (op : Op) : Pc → Bool
  | .unlock _ | .leave _ | .reclaim _ | .sync .. | .free _ | .addUnlock => true
  | .done r => r = op.success
  | _ => false

def Sys.Running (s : Sys) (c : Nat) : Prop := ∃ f, s.frames[c]? = some f ∧ f.pc.returned = none

variable {cfg : Config} {s₀ s s' t : Sys} {a : Action} {as bs : List Action} {xs xs' : List Addr}
  {ut ut' : Addr → Option Nat} {c : Nat} {f f' g : Frame} {alloc : Bool} {b : Addr} {k : Nat}
  {r : Option Int}

theorem CommitsAt.later (h : CommitsAt cfg s₀ as c k) (bs : List Action) :
    CommitsAt cfg s₀ (as ++ bs) c k := by
  obtain ⟨alloc, s, g, ha, hs, hg⟩ := h
  have hlt := (List.getElem?_eq_some_iff.mp ha).1
  refine ⟨alloc, s, g, ?_, ?_, hg⟩
  · rw [List.getElem?_append_left hlt]
    exact ha
  · rw [List.take_append_of_le_length hlt]
    exact hs

/-- A call that changes the list in a longer run has done so before, or it does in the last step. -/
theorem commitsAt_snoc (hrun : exec (Sys.step cfg) s₀ (as ++ [a]) = some s')
    (h : CommitsAt cfg s₀ (as ++ [a]) c k) :
    CommitsAt cfg s₀ as c k ∨ ∃ alloc g, a = .run c alloc ∧ s'.frames[c]? = some g ∧
      g.pc.committed = true := by
  obtain ⟨alloc, s, g, ha, hs, hg, hc⟩ := h
  rcases Nat.lt_trichotomy k as.length with hlt | rfl | hgt
  · left
    rw [List.getElem?_append_left hlt] at ha
    rw [List.take_append_of_le_length hlt] at hs
    exact ⟨alloc, s, g, ha, hs, hg, hc⟩
  · right
    rw [List.getElem?_append_right (Nat.le_refl _), Nat.sub_self] at ha
    rw [List.take_of_length_le (by simp), hrun] at hs
    cases ha
    cases hs
    exact ⟨alloc, g, rfl, hg, hc⟩
  · rw [List.getElem?_eq_none (by simp; omega)] at ha
    cases ha

theorem CommitsAt.now (hrun : exec (Sys.step cfg) s₀ (as ++ [.run c alloc]) = some s')
    (hg : s'.frames[c]? = some g) (hc : g.pc.committed = true) :
    CommitsAt cfg s₀ (as ++ [.run c alloc]) c as.length := by
  refine ⟨alloc, s', g, by simp, ?_, hg, hc⟩
  rw [List.take_of_length_le (by simp)]
  exact hrun

theorem OutOfMemory.later (h : OutOfMemory cfg s₀ as c) (bs : List Action) :
    OutOfMemory cfg s₀ (as ++ bs) c := by
  obtain ⟨front, m, f, hfront, hrest⟩ := h
  exact ⟨front, m, f, hfront.trans (List.prefix_append _ _), hrest⟩

theorem AllocFailed.outOfMemory (h : AllocFailed cfg s₀ as c) : OutOfMemory cfg s₀ as c := by
  obtain ⟨front, m, f, b, hfront, hm, hf, hpc⟩ := h
  exact ⟨front, m, f, hfront, hm, hf, .inr ⟨b, hpc⟩⟩

/-! ## Frames along a run -/

theorem returned_eq_some {pc : Pc} : pc.returned = some r ↔ pc = .done r := by
  cases pc <;> simp [Pc.returned]

theorem frame_kept (htyped : Typed s) (hs : s.step cfg a = some s') (hf : s.frames[c]? = some f) :
    ∃ g, s'.frames[c]? = some g ∧ g.op = f.op ∧ ∀ r, f.pc = .done r → g.pc = .done r := by
  obtain ⟨g, hg, hop⟩ := op_step htyped hs hf
  refine ⟨g, hg, hop, ?_⟩
  intro r hr
  rcases step_frame htyped hs hg with ⟨op, -, hc, -⟩ | ⟨al, f', t, -, hf', ht, -⟩ | ⟨hg', -⟩
  · have hlt := (List.getElem?_eq_some_iff.mp hf).1
    omega
  · cases hf.symm.trans hf'
    unfold Sys.frameStep at ht
    rw [hr] at ht
    cases ht
  · cases hf.symm.trans hg'
    exact hr

theorem frame_kept_run (htyped : Typed s) (hrun : exec (Sys.step cfg) s as = some s')
    (hf : s.frames[c]? = some f) :
    ∃ g, s'.frames[c]? = some g ∧ g.op = f.op ∧ ∀ r, f.pc = .done r → g.pc = .done r := by
  have hinv : Typed s' ∧ ∃ g, s'.frames[c]? = some g ∧ g.op = f.op ∧
      ∀ r, f.pc = .done r → g.pc = .done r := by
    refine exec_invariant (I := fun m => Typed m ∧ ∃ g, m.frames[c]? = some g ∧ g.op = f.op ∧
      ∀ r, f.pc = .done r → g.pc = .done r) (G := fun _ _ => True) ?_
      ⟨htyped, f, hf, rfl, fun _ hr => hr⟩ (Along.of_mem (fun _ _ => trivial) s) hrun
    intro m a m' hI _ hm
    obtain ⟨hm', g, hg, hop, hdone⟩ := hI
    obtain ⟨g', hg', hop', hdone'⟩ := frame_kept hm' hm hg
    exact ⟨hm'.step hm, g', hg', hop'.trans hop, fun r hr => hdone' r (hdone r hr)⟩
  exact hinv.2

/-! ## After the change -/

theorem past_of_committed {pc : Pc} (op : Op) (h : pc.committed = true) : pc.past op = true := by
  cases pc <;> first | rfl | cases h

/-- A call that has changed the list goes on to its end and does not change it again. -/
theorem Trans.past (ht : Trans cfg s c f alloc t) (hf : s.frames[c]? = some f)
    (hg : t.frames[c]? = some g) (hfits : f.Fits) (hp : f.pc.past f.op = true) :
    g.pc.past f.op = true ∧ g.pc.committed = false := by
  have hs := hfits.suits
  cases ht with
  | quiet f' hl ha =>
      rw [eq_of_getElem?_set hf hg]
      cases hl with
      | leave b hpc | sync b hpc | grace b n hpc => exact ⟨rfl, rfl⟩
      | noMemory hpc | enter hpc | first hpc | finish hpc | hit b hpc | miss b hpc | next b hpc
      | refuse b u id async hpc | accept b u id async hpc | giveUp b hpc | found b hpc | late b hpc
      | print b hpc | exit hpc =>
          rw [hpc] at hp
          cases hp
      | wild p hpc =>
          rw [hpc] at hp
          cases hp
  | acquire pc hfree hpc =>
      rcases hpc with ⟨hpc, -, -⟩ | ⟨b, newB, hpc, -⟩ | ⟨b, hpc, -⟩ <;> (rw [hpc] at hp; cases hp)
  | release pc hpc =>
      rw [eq_of_getElem?_set hf hg]
      rcases hpc with ⟨b, -, rfl⟩ | ⟨hpc, rfl⟩ | ⟨hpc, -, -⟩
      · cases hdel : f.op.deletes <;> simp [Pc.past, Pc.committed]
      · have hadds : f.op.adds = true := by simpa [hpc, Pc.suits] using hs
        refine ⟨?_, rfl⟩
        cases hop : f.op <;> simp_all [Op.adds, Pc.past, Op.success]
      · rw [hpc] at hp
        cases hp
  | alloc pc ha hpc =>
      rcases hpc with ⟨id, name, author, -, hpc, -⟩ | ⟨b, hpc, -⟩ <;> (rw [hpc] at hp; cases hp)
  | callRcu b hpc ha | free b hpc =>
      rw [eq_of_getElem?_set hf hg]
      exact ⟨by simp [Pc.past], rfl⟩
  | copy b newB u id async hpc | init b v hpc | replaceFault b newB hpc
  | replace b newB u id async hpc | delFault b hpc | del b hpc | add b hpc =>
      rw [hpc] at hp
      cases hp

/-! ## What is known of the calls of a run -/

structure Tracked (cfg : Config) (s₀ : Sys) (as : List Action) (s : Sys) : Prop where
  past : ∀ c k, CommitsAt cfg s₀ as c k → ∃ f, s.frames[c]? = some f ∧ f.pc.past f.op = true
  unlinked : ∀ c b, (c, b) ∈ unlinked s.hist → ∃ k, CommitsAt cfg s₀ as c k
  began : ∀ (c : Nat) (f : Frame), s.frames[c]? = some f →
    Once (Sys.step cfg) s₀ as (·.Running c)
  added : ∀ (c : Nat) (f : Frame), s.frames[c]? = some f → f.op.adds = true →
    f.pc = .addUnlock ∨ f.pc.returned ≠ none →
    (∃ k, CommitsAt cfg s₀ as c k) ∨ OutOfMemory cfg s₀ as c
  void : ∀ (c : Nat) (f : Frame) r, s.frames[c]? = some f → f.pc = .done r →
    f.op.failure = none → r = none

theorem CommitsAt.past_snoc (htyped : Typed s) (h : Tracked cfg s₀ as s)
    (hs : s.step cfg a = some s') (hrun : exec (Sys.step cfg) s₀ (as ++ [a]) = some s')
    (hk : CommitsAt cfg s₀ (as ++ [a]) c k) :
    ∃ g, s'.frames[c]? = some g ∧ g.pc.past g.op = true := by
  rcases commitsAt_snoc hrun hk with hold | ⟨alloc, g, -, hg, hc⟩
  · obtain ⟨f, hf, hp⟩ := h.past c k hold
    obtain ⟨g, hg, hop, -⟩ := frame_kept htyped hs hf
    refine ⟨g, hg, ?_⟩
    rcases step_frame htyped hs hg with ⟨op, -, hlen, -⟩ | ⟨al, f', t, -, hf', ht, rfl⟩ | ⟨hg', -⟩
    · have hlt := (List.getElem?_eq_some_iff.mp hf).1
      omega
    · cases hf.symm.trans hf'
      rw [hop]
      exact (Trans.past (t := t) (frameStep_trans ht) hf hg (htyped f (List.mem_of_getElem? hf)) hp).1
    · cases hf.symm.trans hg'
      exact hp
  · exact ⟨g, hg, past_of_committed g.op hc⟩

theorem unlinked_snoc (h : Tracked cfg s₀ as s) (hs : s.step cfg a = some s')
    (hrun : exec (Sys.step cfg) s₀ (as ++ [a]) = some s') (hb : (c, b) ∈ unlinked s'.hist) :
    ∃ k, CommitsAt cfg s₀ (as ++ [a]) c k := by
  have hold : (c, b) ∈ unlinked s.hist → ∃ k, CommitsAt cfg s₀ (as ++ [a]) c k := by
    intro hb
    obtain ⟨k, hk⟩ := h.unlinked c b hb
    exact ⟨k, hk.later [a]⟩
  rcases step_cases hs with ⟨op, -, rfl⟩ | ⟨k, al, f, t, rfl, hf, ht, rfl⟩ | ⟨i, x, n, -, -, -, rfl⟩
  · exact hold hb
  · have hlt := (List.getElem?_eq_some_iff.mp hf).1
    cases ht with
    | replace x newB u id async hpc | del x hpc =>
        rcases List.mem_cons.mp hb with heq | hb
        · cases heq
          exact ⟨_, .now hrun (List.getElem?_set_self hlt) rfl⟩
        · exact hold hb
    | _ => exact hold hb
  · exact hold hb

theorem added_own (h : Tracked cfg s₀ as s) (hrun : exec (Sys.step cfg) s₀ as = some s)
    (hrun' : exec (Sys.step cfg) s₀ (as ++ [.run c alloc]) = some t.tick)
    (ht : s.frameStep cfg c f alloc = some t) (hf : s.frames[c]? = some f) (hfits : f.Fits)
    (hg : t.tick.frames[c]? = some g) (hadds : f.op.adds = true)
    (hpc' : g.pc = .addUnlock ∨ g.pc.returned ≠ none) :
    (∃ k, CommitsAt cfg s₀ (as ++ [.run c alloc]) c k) ∨
      OutOfMemory cfg s₀ (as ++ [.run c alloc]) c := by
  obtain ⟨id, name, author, hop⟩ := Op.adds_iff.mp hadds
  have hsuits := hfits.suits
  have hlt := (List.getElem?_eq_some_iff.mp hf).1
  unfold Sys.frameStep at ht
  cases hpc : f.pc with
  | start =>
      cases alloc with
      | true =>
          simp only [hpc, hop, if_pos] at ht
          cases ht
          rw [eq_of_getElem?_set hf hg] at hpc'
          simp [Pc.returned] at hpc'
      | false =>
          exact .inr ⟨as, s, f, List.prefix_refl _, hrun, hf, .inl ⟨hpc, hadds⟩⟩
  | init b =>
      simp only [hpc, hop] at ht
      cases ht
      rw [eq_of_getElem?_set hf hg] at hpc'
      simp [Pc.returned] at hpc'
  | addLock b =>
      simp only [hpc] at ht
      split at ht
      · cases ht
        rw [eq_of_getElem?_set hf hg] at hpc'
        simp [Pc.returned] at hpc'
      · cases ht
  | addLink b =>
      simp only [hpc] at ht
      cases ht
      exact .inl ⟨_, .now hrun' (List.getElem?_set_self hlt) rfl⟩
  | addUnlock =>
      rcases h.added c f hf hadds (.inl hpc) with ⟨k, hk⟩ | hmem
      · exact .inl ⟨k, hk.later _⟩
      · exact .inr (hmem.later _)
  | done r | oops =>
      simp only [hpc] at ht
      cases ht
  | _ => simp [hpc, hop, Pc.suits, Op.adds, Op.updates, Op.deletes] at hsuits

theorem Op.success_of_failure {op : Op} (h : op.failure = none) : op.success = none := by
  cases op <;> first | rfl | cases h

theorem void_own (ht : Trans cfg s c f alloc t) (hf : s.frames[c]? = some f) (hfits : f.Fits)
    (hg : t.frames[c]? = some g) (hr : g.pc = .done r) (hvoid : f.op.failure = none) :
    r = none := by
  have hsuits := hfits.suits
  have hsuccess := Op.success_of_failure hvoid
  cases ht with
  | quiet f' hl ha =>
      rw [eq_of_getElem?_set hf hg] at hr
      cases hl with
      | noMemory hpc =>
          cases hr
          rfl
      | hit b hpc hid => cases hop : f.op <;> simp [Sys.hit, hop] at hr
      | late b hpc =>
          have hop : f.op = .isBorrowedBook f.op.id := by simpa [hpc, Pc.suits] using hsuits
          rw [hop] at hvoid
          cases hvoid
      | exit hpc =>
          cases hr
          exact hvoid
      | _ => cases hr
  | acquire pc hfree hpc =>
      rw [eq_of_getElem?_set hf hg] at hr
      rcases hpc with ⟨-, -, rfl⟩ | ⟨b, newB, -, rfl⟩ | ⟨b, -, rfl⟩ <;> cases hr
  | release pc hpc =>
      rw [eq_of_getElem?_set hf hg] at hr
      rcases hpc with ⟨b, -, rfl⟩ | ⟨-, rfl⟩ | ⟨-, -, rfl⟩
      · cases hdel : f.op.deletes <;> simp [hdel] at hr
      · cases hr
        rfl
      · cases hr
        exact hvoid
  | alloc pc ha hpc =>
      rw [eq_of_getElem?_set hf hg] at hr
      rcases hpc with ⟨id, name, author, -, -, rfl⟩ | ⟨b, -, rfl⟩ <;> cases hr
  | callRcu b hpc ha | free b hpc =>
      rw [eq_of_getElem?_set hf hg] at hr
      cases hr
      exact hsuccess
  | _ =>
      rw [eq_of_getElem?_set hf hg] at hr
      cases hr

theorem Tracked.step (h : Tracked cfg s₀ as s) (htyped : Typed s)
    (hrun : exec (Sys.step cfg) s₀ as = some s) (hs : s.step cfg a = some s') :
    Tracked cfg s₀ (as ++ [a]) s' := by
  have hrun' := exec_snoc hrun hs
  constructor
  case past => exact fun c k hk => hk.past_snoc htyped h hs hrun'
  case unlinked => exact fun c b hb => unlinked_snoc h hs hrun' hb
  case began =>
    intro c g hg
    rcases step_frame htyped hs hg with ⟨op, -, -, rfl⟩ | ⟨al, f, t, rfl, hf, -, rfl⟩ | ⟨hf, -⟩
    · exact .now hrun' ⟨_, hg, rfl⟩
    · exact (h.began c f hf).later _
    · exact (h.began c g hf).later _
  case added =>
    intro c g hg hadds hpc
    rcases step_frame htyped hs hg with ⟨op, -, -, rfl⟩ | ⟨al, f, t, rfl, hf, ht, rfl⟩ | ⟨hf, -⟩
    · simp [Frame.new, Pc.returned] at hpc
    · obtain ⟨g', hg', hop, -⟩ := frame_kept htyped hs hf
      cases hg.symm.trans hg'
      rw [hop] at hadds
      exact added_own (t := t) h hrun hrun' ht hf (htyped f (List.mem_of_getElem? hf)) hg hadds hpc
    · rcases h.added c g hf hadds hpc with ⟨k, hk⟩ | hmem
      · exact .inl ⟨k, hk.later _⟩
      · exact .inr (hmem.later _)
  case void =>
    intro c g r hg hr hvoid
    rcases step_frame htyped hs hg with ⟨op, -, -, rfl⟩ | ⟨al, f, t, rfl, hf, ht, rfl⟩ | ⟨hf, -⟩
    · cases hr
    · obtain ⟨g', hg', hop, -⟩ := frame_kept htyped hs hf
      cases hg.symm.trans hg'
      rw [hop] at hvoid
      exact void_own (t := t) (frameStep_trans ht) hf (htyped f (List.mem_of_getElem? hf)) hg hr hvoid
    · exact h.void c g r hf hr hvoid

theorem Tracked.boot (cfg : Config) (m : Mem) (ops : List Op) :
    Tracked cfg (Sys.boot m ops) [] (Sys.boot m ops) := by
  have hnew : ∀ (c : Nat) (f : Frame), (Sys.boot m ops).frames[c]? = some f →
      ∃ op, f = Frame.new op := by
    intro c f hf
    obtain ⟨op, -, rfl⟩ := List.mem_map.mp (List.mem_of_getElem? hf)
    exact ⟨op, rfl⟩
  constructor
  case past =>
    intro c k hk
    obtain ⟨alloc, s, g, ha, -⟩ := hk
    cases ha
  case unlinked => exact fun c b hb => nomatch hb
  case began =>
    intro c f hf
    obtain ⟨op, rfl⟩ := hnew c f hf
    exact .now rfl ⟨_, hf, rfl⟩
  case added =>
    intro c f hf _ hpc
    obtain ⟨op, rfl⟩ := hnew c f hf
    simp [Frame.new, Pc.returned] at hpc
  case void =>
    intro c f r hf hr
    obtain ⟨op, rfl⟩ := hnew c f hf
    cases hr

/-! ## Calls that change nothing -/

theorem running_of_inside (hf : s.frames[c]? = some f) (hin : f.pc.inside = true) :
    s.Running c := by
  refine ⟨f, hf, ?_⟩
  cases hpc : f.pc <;> first | rfl | (rw [hpc] at hin; cases hin)

theorem switch_of_lists (h : Core s xs ut) (hshelf : Shelf s.mem xs) {v : Book} (hv : s.Lists v)
    {u : Update} (hu : u.refuses v.borrow = true) (alloc : Bool) :
    s.entries.switch u.lends v.id alloc = (s.entries, -1) := by
  rw [Catalogue.switch, findFirst_of_lists h hshelf hv]
  apply if_neg
  intro hflag
  have hborrowed := hflag.1
  cases u <;> simp_all [Update.refuses, Update.lends, Book.toEntry]

theorem switch_of_lacks {i : Int} (hi : s.Lacks i) (flag alloc : Bool) :
    s.entries.switch flag i alloc = (s.entries, -1) := by
  rw [Catalogue.switch, findFirst_of_lacks hi]

theorem switch_noMemory (cat : Catalogue) (flag : Bool) (id : Int) :
    cat.switch flag id false = (cat, -1) := by
  unfold Catalogue.switch
  cases cat.findFirst id <;> simp

theorem isBorrowed_of_lists (h : Core s xs ut) (hshelf : Shelf s.mem xs) {v : Book}
    (hv : s.Lists v) : s.entries.isBorrowed v.id = v.borrow := by
  have hfirst := findFirst_of_lists h hshelf hv
  rw [Sys.Lists, h.catalogue_eq] at hv
  rcases List.mem_map.mp hv with ⟨b, hb, rfl⟩
  rw [Catalogue.isBorrowed, hfirst]
  rcases hshelf.flags b hb with hflag | hflag <;> simp [Book.toEntry, hflag]

theorem delete_of_lacks {i : Int} (hi : s.Lacks i) : s.entries.delete i = s.entries := by
  apply Catalogue.delete_none
  intro e he
  rcases List.mem_map.mp he with ⟨v, hv, rfl⟩
  exact hi v hv

/-- At some time of the run, while call `c` was not over, its operation would have left the entries
alone and returned `r`. -/
def Observed (cfg : Config) (s₀ : Sys) (as : List Action) (c : Nat) (op : Op) (r : Option Int) :
    Prop :=
  ∃ alloc, (alloc = false → OutOfMemory cfg s₀ as c) ∧
    Once (Sys.step cfg) s₀ as fun m => m.Running c ∧ op.apply alloc m.entries = (m.entries, r)

/-- A list of books with different ids in every state of the run. -/
def Shelves (cfg : Config) (s₀ : Sys) (as : List Action) : Prop :=
  ∀ front m, front <+: as → exec (Sys.step cfg) s₀ front = some m →
    ∃ xs ut, Core m xs ut ∧ Shelf m.mem xs

theorem During.observed {P : Sys → Prop} {op : Op} (h : During cfg s₀ as c P)
    (hP : ∀ front m, front <+: as → exec (Sys.step cfg) s₀ front = some m → P m →
      op.apply true m.entries = (m.entries, r)) : Observed cfg s₀ as c op r := by
  refine ⟨true, nofun, Once.imp h ?_⟩
  intro front m hfront hm h
  obtain ⟨⟨f, hf, hin⟩, hPm⟩ := h
  exact ⟨running_of_inside hf hin, hP front m hfront hm hPm⟩

theorem Tracked.observed {op : Op} (h : Tracked cfg s₀ as s) (hf : s.frames[c]? = some f)
    (alloc : Bool) (hmem : alloc = false → OutOfMemory cfg s₀ as c)
    (hop : ∀ cat, op.apply alloc cat = (cat, r)) : Observed cfg s₀ as c op r := by
  refine ⟨alloc, hmem, Once.imp (h.began c f hf) ?_⟩
  exact fun front m _ _ hrunning => ⟨hrunning, hop m.entries⟩

/-- A call that is over and has not changed the list has its result from one time of it. -/
theorem Explained.observed (h : Explained cfg s₀ as s c r f.op) (htracked : Tracked cfg s₀ as s)
    (hshelves : Shelves cfg s₀ as) (hf : s.frames[c]? = some f) (hr : f.pc = .done r)
    (hnot : ¬∃ k, CommitsAt cfg s₀ as c k) : Observed cfg s₀ as c f.op r := by
  have hvoid := htracked.void c f r hf hr
  have hadded := htracked.added c f hf
  cases hop : f.op with
  | addBook id name author =>
      rw [hop] at hvoid hadded
      rw [hvoid rfl]
      have hover : f.pc.returned ≠ none := by
        rw [hr]
        exact nofun
      have hmem := (hadded rfl (.inr hover)).resolve_left hnot
      exact htracked.observed hf false (fun _ => hmem) fun _ => rfl
  | printBook id =>
      rw [hop] at hvoid
      rw [hvoid rfl]
      exact htracked.observed hf true nofun fun _ => rfl
  | isBorrowedBook id =>
      rw [hop] at h
      rcases h with ⟨v, rfl, rfl, hv⟩ | ⟨rfl, hlacks⟩
      · apply hv.observed
        intro front m hfront hm hlists
        obtain ⟨xs, ut, hcore, hshelf⟩ := hshelves front m hfront hm
        rw [Op.apply, isBorrowed_of_lists hcore hshelf hlists]
      · apply hlacks.observed
        intro front m _ _ hlacks
        rw [Op.apply, Catalogue.isBorrowed, findFirst_of_lacks hlacks]
  | updateBook u id async =>
      rw [hop] at h
      rcases h with ⟨v, rfl, hv, ⟨-, -, b, hb⟩ | ⟨rfl, hu⟩⟩ | ⟨rfl, hlacks | hmem⟩
      · exact absurd (htracked.unlinked c b hb) hnot
      · apply hv.observed
        intro front m hfront hm hlists
        obtain ⟨xs, ut, hcore, hshelf⟩ := hshelves front m hfront hm
        rw [Op.apply, switch_of_lists hcore hshelf hlists hu]
      · apply hlacks.observed
        intro front m _ _ hlacks
        rw [Op.apply, switch_of_lacks hlacks]
      · exact htracked.observed hf false (fun _ => hmem.outOfMemory) fun cat => by
          rw [Op.apply, switch_noMemory]
  | deleteBook id async =>
      rw [hop] at h hvoid
      rw [hvoid rfl]
      rcases h with ⟨v, rfl, hv, b, hb⟩ | hlacks
      · exact absurd (htracked.unlinked c b hb) hnot
      · apply hlacks.observed
        intro front m _ _ hlacks
        rw [Op.apply, delete_of_lacks hlacks]

/-! ## Whole runs -/

structure Followed (cfg : Config) (s₀ : Sys) (as : List Action) (s : Sys) (xs : List Addr)
    (ut : Addr → Option Nat) : Prop where
  traced : Traced cfg s₀ as s xs ut
  shelved : Shelved s xs
  tracked : Tracked cfg s₀ as s

/-- Replacements find the old object linked, a book is added only under an id that no listed book
has, and nothing is freed that a call is about to load from behind its critical section: what the
allocator leaves there is not known. -/
def Guarded (cfg : Config) (s : Sys) (a : Action) : Prop :=
  ReplacesLinked cfg s a ∧ AddsNew s a ∧ LateLoadsDone s a

instance (cfg : Config) (s : Sys) (a : Action) : Decidable (Guarded cfg s a) :=
  inferInstanceAs (Decidable (_ ∧ _ ∧ _))

theorem Followed.step (h : Followed cfg s₀ as s xs ut) (hrun : exec (Sys.step cfg) s₀ as = some s)
    (hg : Guarded cfg s a) (hs : s.step cfg a = some s') :
    ∃ xs' ut', Followed cfg s₀ (as ++ [a]) s' xs' ut' := by
  have hsound := h.traced.sound
  obtain ⟨xs', ut', hsound', hr⟩ := hsound.step hg.1 hs
  exact ⟨xs', ut', h.traced.relist hrun hs hsound' hr, h.shelved.step hsound hg.2.1 hs hr,
    h.tracked.step hsound.typed hrun hs⟩

theorem followed_of_run {m : Mem} (hm : Booted m xs) (hshelf : Shelf m xs) (ops : List Op)
    (hg : Along (Sys.step cfg) (Guarded cfg) (Sys.boot m ops) as)
    (hrun : exec (Sys.step cfg) (Sys.boot m ops) as = some s) :
    ∃ xs ut, Followed cfg (Sys.boot m ops) as s xs ut := by
  refine exec_history (I := fun as s => ∃ xs ut, Followed cfg (Sys.boot m ops) as s xs ut) ?_
    ⟨xs, _, hm.traced ops, hshelf.shelved ops, .boot cfg m ops⟩ hg hrun
  intro as s a s' hrun hI ha hs
  obtain ⟨xs, ut, h⟩ := hI
  exact h.step hrun ha hs

def AllFollowed (cfg : Config) (s₀ : Sys) (as : List Action) : Prop :=
  ∀ k m, exec (Sys.step cfg) s₀ (as.take k) = some m →
    ∃ xs ut, Followed cfg s₀ (as.take k) m xs ut

theorem AllFollowed.shelves (h : AllFollowed cfg s₀ as) : Shelves cfg s₀ as := by
  intro front m hfront hm
  rw [List.prefix_iff_eq_take.mp hfront] at hm
  obtain ⟨xs, ut, hm⟩ := h _ m hm
  exact ⟨xs, ut, hm.traced.sound.core, hm.shelved.shelf⟩

def timeline (cfg : Config) (s₀ : Sys) (as : List Action) (k : Nat) : Catalogue :=
  match exec (Sys.step cfg) s₀ (as.take k) with
  | some m => m.entries
  | none => []

theorem timeline_eq {m : Sys} (h : exec (Sys.step cfg) s₀ (as.take k) = some m) :
    timeline cfg s₀ as k = m.entries := by
  rw [timeline, h]

/-! ## The change of a call -/

theorem CommitsAt.take (h : CommitsAt cfg s₀ as c k) {l : Nat} (hk : k < l) :
    CommitsAt cfg s₀ (as.take l) c k := by
  obtain ⟨alloc, s, g, ha, hs, hg⟩ := h
  refine ⟨alloc, s, g, ?_, ?_, hg⟩
  · rw [List.getElem?_take_of_lt hk]
    exact ha
  · rw [List.take_take, Nat.min_eq_left hk]
    exact hs

theorem CommitsAt.lt_length (h : CommitsAt cfg s₀ as c k) : k < as.length := by
  obtain ⟨alloc, s, g, ha, -⟩ := h
  exact (List.getElem?_eq_some_iff.mp ha).1

theorem CommitsAt.step (h : CommitsAt cfg s₀ as c k) :
    ∃ alloc m m' g, as[k]? = some (.run c alloc) ∧
      exec (Sys.step cfg) s₀ (as.take k) = some m ∧ m.step cfg (.run c alloc) = some m' ∧
      exec (Sys.step cfg) s₀ (as.take (k + 1)) = some m' ∧ m'.frames[c]? = some g ∧
      g.pc.committed = true := by
  obtain ⟨alloc, m', g, ha, hm', hg, hc⟩ := h
  obtain ⟨m, hm⟩ := exec_take hm' k
  rw [List.take_take, Nat.min_eq_left (Nat.le_succ k)] at hm
  rw [exec_take_succ hm ha] at hm'
  exact ⟨alloc, m, m', g, ha, hm, hm', by rw [exec_take_succ hm ha, hm'], hg, hc⟩

theorem CommitsAt.not_lt (hall : AllFollowed cfg s₀ as) (h : CommitsAt cfg s₀ as c k) {l : Nat}
    (h' : CommitsAt cfg s₀ as c l) : ¬k < l := by
  intro hlt
  obtain ⟨alloc, m, m', g, -, hm, hstep, -, hg, hc⟩ := h'.step
  obtain ⟨xs, ut, hfollowed⟩ := hall l m hm
  obtain ⟨f, hf, hp⟩ := hfollowed.tracked.past c k (h.take hlt)
  have htyped := hfollowed.traced.sound.typed
  rcases step_frame htyped hstep hg with ⟨op, heq, -⟩ | ⟨al, f', t, -, hf', ht, rfl⟩ | ⟨-, hother⟩
  · cases heq
  · cases hf.symm.trans hf'
    have hpast := Trans.past (t := t) (frameStep_trans ht) hf hg
      (htyped f (List.mem_of_getElem? hf)) hp
    rw [hpast.2] at hc
    cases hc
  · exact hother alloc rfl

theorem CommitsAt.unique (hall : AllFollowed cfg s₀ as) (h : CommitsAt cfg s₀ as c k) {l : Nat}
    (h' : CommitsAt cfg s₀ as c l) : k = l :=
  Nat.le_antisymm (Nat.not_lt.mp (h'.not_lt hall h)) (Nat.not_lt.mp (h.not_lt hall h'))

/-- A step of the run is the abstract operation of a call that changes the list in it, or the entries
stay what they are. -/
theorem AllFollowed.step (hall : AllFollowed cfg s₀ as)
    (hg : Along (Sys.step cfg) (Guarded cfg) s₀ as) (hrun : exec (Sys.step cfg) s₀ as = some s)
    (hk : k < as.length) :
    ∃ m m', exec (Sys.step cfg) s₀ (as.take k) = some m ∧
      exec (Sys.step cfg) s₀ (as.take (k + 1)) = some m' ∧
      ((∃ c f, Commits m m' as[k] c f ∧ CommitsAt cfg s₀ as c k) ∨
        m'.entries = m.entries ∧ ∀ c, ¬CommitsAt cfg s₀ as c k) := by
  have ha : as[k]? = some as[k] := List.getElem?_eq_getElem hk
  obtain ⟨m, hm⟩ := exec_take hrun k
  obtain ⟨m', hm'⟩ := exec_take hrun (k + 1)
  have hstep := exec_take_succ hm ha
  rw [hm'] at hstep
  obtain ⟨xs, ut, hfollowed⟩ := hall k m hm
  have hsound := hfollowed.traced.sound
  obtain ⟨xs', ut', hsound', hr⟩ := hsound.step (hg.at hm ha).1 hstep.symm
  refine ⟨m, m', hm, hm', ?_⟩
  rcases hr.entries hsound hsound'.core hfollowed.shelved hstep.symm with
    ⟨c, f, hcommits⟩ | ⟨hsame, hnone⟩
  · obtain ⟨alloc, haction⟩ := hcommits.action
    obtain ⟨g, hgc, hc⟩ := hcommits.committed
    exact .inl ⟨c, f, hcommits, alloc, m', g, by rw [ha, haction], hm', hgc, hc⟩
  · refine .inr ⟨hsame, ?_⟩
    intro c hcommits
    obtain ⟨alloc, s, g, ha', hs, hgc, hc⟩ := hcommits
    cases hm'.symm.trans hs
    rw [hnone c alloc g (Option.some.inj (ha.symm.trans ha')) hgc] at hc
    cases hc

/-- A call that changes the list is not over by then, does its operation, and returns its result. -/
theorem CommitsAt.effect (hall : AllFollowed cfg s₀ as)
    (hg : Along (Sys.step cfg) (Guarded cfg) s₀ as) (hrun : exec (Sys.step cfg) s₀ as = some s)
    (h : CommitsAt cfg s₀ as c k) :
    ∃ m f, exec (Sys.step cfg) s₀ (as.take k) = some m ∧ m.Running c ∧ s.frames[c]? = some f ∧
      f.op.apply true (timeline cfg s₀ as k) = (timeline cfg s₀ as (k + 1), f.op.success) ∧
      ∀ r, s.returned c = some r → r = f.op.success := by
  obtain ⟨m, m', hm, hm', hcase⟩ := hall.step hg hrun h.lt_length
  rcases hcase with ⟨c', f, hcommits, h'⟩ | ⟨-, hnone⟩
  · have hsame : c' = c := by
      obtain ⟨alloc, -, -, ha, -⟩ := h
      obtain ⟨alloc', -, -, ha', -⟩ := h'
      cases ha.symm.trans ha'
      rfl
    subst hsame
    obtain ⟨xs, ut, hfollowed⟩ := hall k m hm
    have htyped := hfollowed.traced.sound.typed
    have hrest : exec (Sys.step cfg) m ((as.take as.length).drop k) = some s :=
      exec_between hm (by rw [List.take_length]; exact hrun) (Nat.le_of_lt h.lt_length)
    obtain ⟨g, hgc, hop, -⟩ := frame_kept_run htyped hrest hcommits.frame
    obtain ⟨xs', ut', hend⟩ := hall as.length s (by rw [List.take_length]; exact hrun)
    rw [List.take_length] at hend
    refine ⟨m, g, hm, ⟨f, hcommits.frame, ?_⟩, hgc, ?_, ?_⟩
    · -- a call that is over takes no step
      cases hret : f.pc.returned with
      | none => rfl
      | some r =>
          obtain ⟨g', hg', hc⟩ := hcommits.committed
          obtain ⟨g'', hg'', -, hdone⟩ := frame_kept_run htyped
            (exec_between hm hm' (Nat.le_succ k)) hcommits.frame
          cases hg'.symm.trans hg''
          rw [hdone r (returned_eq_some.mp hret)] at hc
          cases hc
    · rw [timeline_eq hm, timeline_eq hm', hop, hcommits.entries_eq, ← hcommits.result_eq]
    · intro r hr
      obtain ⟨f', hf', hp⟩ := hend.tracked.past c' k h
      cases hgc.symm.trans hf'
      rw [Sys.returned, hgc, Option.bind_some, returned_eq_some] at hr
      rw [hr] at hp
      exact of_decide_eq_true hp
  · exact absurd h (hnone c)

/-! ## Linearizability -/

def Sys.applyCall (s : Sys) (alloc : Nat → Bool) (c : Nat) (cat : Catalogue) :
    Catalogue × Option Int :=
  match s.frames[c]? with
  | some f => f.op.apply (alloc c) cat
  | none => (cat, none)

/-- The calls that are over, and some of the others, one after the other: from the entries of the
first state each has the result it has returned, and all lead to the entries of the last one. None
comes after one that began when it was over, and a call runs out of memory only if it did. -/
def Linearizable (cfg : Config) (s₀ : Sys) (as : List Action) (s : Sys) : Prop :=
  ∃ (order : List Nat) (alloc : Nat → Bool),
    Linearization (s.applyCall alloc) s.returned (Precedes cfg s₀ as) s₀.entries s.entries order ∧
    (∀ c ∈ order, c < s.frames.length) ∧ ∀ c, alloc c = false → OutOfMemory cfg s₀ as c

structure AtPoint (cfg : Config) (s₀ : Sys) (as : List Action) (s : Sys) (c : Nat) (p : Point)
    (alloc : Bool) : Prop where
  live : ∃ m, exec (Sys.step cfg) s₀ (as.take p.time) = some m ∧ m.Running c
  within : p.time + p.moves.toNat ≤ as.length
  commits : p.moves = true → CommitsAt cfg s₀ as c p.time
  only : ∀ k, CommitsAt cfg s₀ as c k → p = ⟨k, true⟩
  memory : alloc = false → OutOfMemory cfg s₀ as c
  placed : Placed (s.applyCall fun _ => alloc) s.returned (timeline cfg s₀ as) p c

theorem exists_point (hall : AllFollowed cfg s₀ as)
    (hg : Along (Sys.step cfg) (Guarded cfg) s₀ as) (hrun : exec (Sys.step cfg) s₀ as = some s)
    (hc : s.returned c ≠ none ∨ ∃ k, CommitsAt cfg s₀ as c k) :
    ∃ p alloc, AtPoint cfg s₀ as s c p alloc := by
  by_cases hcommits : ∃ k, CommitsAt cfg s₀ as c k
  · obtain ⟨k, hk⟩ := hcommits
    obtain ⟨m, f, hm, hrunning, hf, heffect, hresult⟩ := hk.effect hall hg hrun
    refine ⟨⟨k, true⟩, true, ⟨m, hm, hrunning⟩, hk.lt_length, fun _ => hk, ?_, nofun, ?_⟩
    · intro l hl
      rw [hk.unique hall hl]
    · constructor
      · rw [Sys.applyCall, hf]
        exact congrArg Prod.fst heffect
      · intro r hr
        rw [Sys.applyCall, hf, hresult r hr]
        exact congrArg Prod.snd heffect
  · obtain ⟨f, hf, hret⟩ : ∃ f, s.frames[c]? = some f ∧ f.pc.returned ≠ none := by
      have hover := hc.resolve_right hcommits
      cases hf : s.frames[c]? with
      | none => simp [Sys.returned, hf] at hover
      | some f => exact ⟨f, rfl, by simpa [Sys.returned, hf] using hover⟩
    obtain ⟨r, hr⟩ := Option.ne_none_iff_exists'.mp hret
    have hdone := returned_eq_some.mp hr
    obtain ⟨xs, ut, hend⟩ := hall as.length s (by rw [List.take_length]; exact hrun)
    rw [List.take_length] at hend
    have hexplained := (hend.traced.linearized hrun).answered c f r hf hdone
    obtain ⟨alloc, hmem, honce⟩ :=
      hexplained.observed hend.tracked hall.shelves hf hdone hcommits
    obtain ⟨k, m, hk, hm, hrunning, hop⟩ := honce.at
    refine ⟨⟨k, false⟩, alloc, ⟨m, hm, hrunning⟩, hk, nofun, ?_, hmem, ?_⟩
    · exact fun l hl => absurd ⟨l, hl⟩ hcommits
    · have happly : s.applyCall (fun _ => alloc) c (timeline cfg s₀ as k) =
          (timeline cfg s₀ as k, r) := by
        rw [Sys.applyCall, hf, timeline_eq hm]
        exact hop
      constructor
      · exact congrArg Prod.fst happly
      · intro r' hr'
        have hrr : r = r' := by
          rw [Sys.returned, hf, Option.bind_some, hr] at hr'
          exact Option.some.inj hr'
        rw [← hrr]
        exact congrArg Prod.snd happly

theorem Precedes.lt (hall : AllFollowed cfg s₀ as) {c' : Nat} (h : Precedes cfg s₀ as c c') {k l : Nat}
    (hc : ∃ m, exec (Sys.step cfg) s₀ (as.take k) = some m ∧ m.Running c)
    (hc' : ∃ m, exec (Sys.step cfg) s₀ (as.take l) = some m ∧ m.Running c') : k < l := by
  obtain ⟨n, m, -, hm, hover, hnone⟩ := h.at
  obtain ⟨m₁, hm₁, f, hf, hret⟩ := hc
  obtain ⟨m₂, hm₂, f', hf', -⟩ := hc'
  have hk : k < n := by
    by_contra hle
    obtain ⟨xs, ut, hfollowed⟩ := hall n m hm
    cases hg : m.frames[c]? with
    | none => simp [Sys.returned, hg] at hover
    | some g =>
        rw [Sys.returned, hg, Option.bind_some] at hover
        obtain ⟨r, hr⟩ := Option.ne_none_iff_exists'.mp hover
        obtain ⟨g', hg', -, hdone⟩ := frame_kept_run hfollowed.traced.sound.typed
          (exec_between hm hm₁ (Nat.not_lt.mp hle)) hg
        cases hf.symm.trans hg'
        rw [hdone r (returned_eq_some.mp hr)] at hret
        cases hret
  have hl : n < l := by
    by_contra hle
    obtain ⟨xs, ut, hfollowed⟩ := hall l m₂ hm₂
    obtain ⟨g, hg, -⟩ := frame_kept_run hfollowed.traced.sound.typed
      (exec_between hm₂ hm (Nat.not_lt.mp hle)) hf'
    rw [hnone] at hg
    cases hg
  omega

/-- Points for all calls that are over or have changed the list. -/
theorem exists_points (hall : AllFollowed cfg s₀ as)
    (hg : Along (Sys.step cfg) (Guarded cfg) s₀ as) (hrun : exec (Sys.step cfg) s₀ as = some s) :
    ∃ (point : Nat → Point) (alloc : Nat → Bool),
      (∀ c, alloc c = false → OutOfMemory cfg s₀ as c) ∧
      ∀ c, s.returned c ≠ none ∨ (∃ k, CommitsAt cfg s₀ as c k) →
        AtPoint cfg s₀ as s c (point c) (alloc c) := by
  have hpoint : ∀ c, ∃ p alloc, (alloc = false → OutOfMemory cfg s₀ as c) ∧
      (s.returned c ≠ none ∨ (∃ k, CommitsAt cfg s₀ as c k) →
        AtPoint cfg s₀ as s c p alloc) := by
    intro c
    by_cases hc : s.returned c ≠ none ∨ ∃ k, CommitsAt cfg s₀ as c k
    · obtain ⟨p, alloc, h⟩ := exists_point hall hg hrun hc
      exact ⟨p, alloc, h.memory, fun _ => h⟩
    · exact ⟨⟨0, false⟩, true, nofun, fun hin => absurd hin hc⟩
  choose point alloc hshort hat using hpoint
  exact ⟨point, alloc, hshort, hat⟩

/-- The points tell how the entries change along the run. -/
theorem AllFollowed.placed (hall : AllFollowed cfg s₀ as)
    (hg : Along (Sys.step cfg) (Guarded cfg) s₀ as) (hrun : exec (Sys.step cfg) s₀ as = some s)
    {calls : List Nat} {point : Nat → Point} {alloc : Nat → Bool}
    (hin : ∀ c k, CommitsAt cfg s₀ as c k → c ∈ calls)
    (hat : ∀ c ∈ calls, AtPoint cfg s₀ as s c (point c) (alloc c)) :
    Timeline (s.applyCall alloc) s.returned (timeline cfg s₀ as) as.length calls point := by
  constructor
  · exact fun c hc => (hat c hc).within
  · intro c hc
    have hplaced := (hat c hc).placed
    exact ⟨hplaced.state_eq, hplaced.result_eq⟩
  · -- two calls do not change the list in one step
    intro c hc c' hc' hmoves hmoves' heq
    obtain ⟨alloc, -, -, ha, -⟩ := (hat c hc).commits hmoves
    obtain ⟨alloc', -, -, ha', -⟩ := (hat c' hc').commits hmoves'
    rw [← heq] at ha'
    cases ha.symm.trans ha'
    rfl
  · intro k hk hnone
    obtain ⟨m₁, m₂, hm₁, hm₂, hcase⟩ := hall.step hg hrun hk
    rw [timeline_eq hm₁, timeline_eq hm₂]
    rcases hcase with ⟨c, f, -, hcommits⟩ | ⟨hsame, -⟩
    · have hc := hin c k hcommits
      have hp := (hat c hc).only k hcommits
      exact absurd (by rw [hp]) (hnone c hc (by rw [hp]))
    · exact hsame

theorem AtPoint.rank_lt (hall : AllFollowed cfg s₀ as) {c' : Nat} {p p' : Point} {alloc' : Bool}
    (h : AtPoint cfg s₀ as s c p alloc) (h' : AtPoint cfg s₀ as s c' p' alloc')
    (hprec : Precedes cfg s₀ as c c') : p.rank < p'.rank := by
  have hlt := hprec.lt hall h.live h'.live
  have hone : p.moves.toNat ≤ 1 := Bool.toNat_le _
  unfold Point.rank
  omega

open Classical in
/-- A run whose replacements find the old object linked, in which a book is added only under an id
that is free and no late load comes after the freeing of its object, is as if its calls were done
one after the other. -/
theorem guarded_runs_linearize {m : Mem} (hm : Booted m xs) (hshelf : Shelf m xs) (ops : List Op)
    (hg : Along (Sys.step cfg) (Guarded cfg) (Sys.boot m ops) as)
    (hrun : exec (Sys.step cfg) (Sys.boot m ops) as = some s) :
    Linearizable cfg (Sys.boot m ops) as s := by
  have hall : AllFollowed cfg (Sys.boot m ops) as := fun k m' hm' =>
    followed_of_run hm hshelf ops (hg.take k) hm'
  obtain ⟨point, alloc, hshort, hat⟩ := exists_points hall hg hrun
  let calls := (List.range s.frames.length).filter fun c =>
    s.returned c ≠ none ∨ ∃ k, CommitsAt cfg (Sys.boot m ops) as c k
  have hmem : ∀ c, c ∈ calls ↔ c < s.frames.length ∧
      (s.returned c ≠ none ∨ ∃ k, CommitsAt cfg (Sys.boot m ops) as c k) := by
    intro c
    simp [calls]
  have hcomplete : ∀ c, s.returned c ≠ none → c ∈ calls := by
    intro c hover
    refine (hmem c).mpr ⟨?_, .inl hover⟩
    by_contra hlarge
    simp [Sys.returned, List.getElem?_eq_none (Nat.not_lt.mp hlarge)] at hover
  have hin : ∀ c k, CommitsAt cfg (Sys.boot m ops) as c k → c ∈ calls := by
    intro c k hk
    obtain ⟨-, f, -, -, hf, -⟩ := hk.effect hall hg hrun
    exact (hmem c).mpr ⟨(List.getElem?_eq_some_iff.mp hf).1, .inr ⟨k, hk⟩⟩
  have hplace := hall.placed hg hrun hin fun c hc => hat c ((hmem c).mp hc).2
  have hbefore : ∀ c ∈ calls, ∀ c' ∈ calls, Precedes cfg (Sys.boot m ops) as c c' →
      (point c).rank < (point c').rank := fun c hc c' hc' hprec =>
    (hat c ((hmem c).mp hc).2).rank_lt hall (hat c' ((hmem c').mp hc').2) hprec
  obtain ⟨order, hlin, hsub⟩ := hplace.linearizes (List.nodup_range.filter _) hcomplete hbefore
  rw [timeline_eq (m := Sys.boot m ops) rfl,
    timeline_eq (k := as.length) (by rw [List.take_length]; exact hrun)] at hlin
  exact ⟨order, alloc, hlin, fun c hc => ((hmem c).mp (hsub c hc)).1, hshort⟩

theorem oneBook_shelf : Shelf oneBook [0] where
  ids := List.nodup_singleton _
  flags := by decide

/-- A book is lent out and another one added between two steps of a search: the search, which began
before, still answers that the book is there. -/
theorem search_before_borrow : ∃ s,
    exec (Sys.step ⟨false⟩)
      (Sys.boot oneBook [.isBorrowedBook 0, .borrowBook 0 true, .addBook 1 [] []])
      (List.replicate 2 (.run 0 true) ++ List.replicate 11 (.run 1 true) ++
        List.replicate 5 (.run 2 true) ++ List.replicate 3 (.run 0 true)) = some s ∧
    s.frames.map Frame.pc = [.done (some 0), .done (some 0), .done none] ∧
    s.entries.map Entry.borrowed = [false, true] ∧
    Linearizable ⟨false⟩
      (Sys.boot oneBook [.isBorrowedBook 0, .borrowBook 0 true, .addBook 1 [] []])
      (List.replicate 2 (.run 0 true) ++ List.replicate 11 (.run 1 true) ++
        List.replicate 5 (.run 2 true) ++ List.replicate 3 (.run 0 true)) s := by
  obtain ⟨s, hs, hend⟩ := Option.map_eq_some_iff.mp (show (exec (Sys.step ⟨false⟩)
      (Sys.boot oneBook [.isBorrowedBook 0, .borrowBook 0 true, .addBook 1 [] []])
      (List.replicate 2 (.run 0 true) ++ List.replicate 11 (.run 1 true) ++
        List.replicate 5 (.run 2 true) ++ List.replicate 3 (.run 0 true))).map
      (fun s => (s.frames.map Frame.pc, s.entries.map Entry.borrowed)) =
      some ([.done (some 0), .done (some 0), .done none], [false, true]) by decide)
  obtain ⟨hpc, hentries⟩ := Prod.mk.inj hend
  exact ⟨s, hs, hpc, hentries,
    guarded_runs_linearize oneBook_booted oneBook_shelf _ (by decide) hs⟩

end KernelTrg.Books
