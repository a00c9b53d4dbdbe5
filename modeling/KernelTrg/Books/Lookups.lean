import KernelTrg.Books.Searches
import KernelTrg.Books.Readers

/-!
# What a search answers

A search runs through the list while others add, replace and delete books, and no
state of the list need be the one it has seen. All the same every answer is that of
the list at one time of the search: a book it comes to was listed then with the fields
it has, and where it comes to none, no listed book had the id.
-/

namespace KernelTrg.Books

open LinkRing Runs

/-- At some time of the run, with call `c` inside its critical section, `P` held. -/
def During (cfg : Config) (s₀ : Sys) (as : List Action) (c : Nat) (P : Sys → Prop) : Prop :=
  Once (Sys.step cfg) s₀ as fun m => (∃ f, m.frames[c]? = some f ∧ f.pc.inside = true) ∧ P m

/-- At some time of the run a `kzalloc` of the updater `c` failed. -/
def AllocFailed (cfg : Config) (s₀ : Sys) (as : List Action) (c : Nat) : Prop :=
  ∃ front m f b, front ++ [.run c false] <+: as ∧ exec (Sys.step cfg) s₀ front = some m ∧
    m.frames[c]? = some f ∧ f.pc = .alloc b

/-- The return value `r` of call `c` is the one for the catalogue at a time of its search. -/
def Explained (cfg : Config) (s₀ : Sys) (as : List Action) (s : Sys) (c : Nat) (r : Option Int) :
    Op → Prop
  | .addBook .. | .printBook _ => True
  | .isBorrowedBook id =>
      (∃ v : Book, v.id = id ∧ r = some v.borrow ∧ During cfg s₀ as c (·.Lists v)) ∨
        r = some (-1) ∧ During cfg s₀ as c (·.Lacks id)
  | .updateBook u id _ =>
      (∃ v : Book, v.id = id ∧ During cfg s₀ as c (·.Lists v) ∧
        (r = some 0 ∧ u.refuses v.borrow = false ∧ (∃ b, (c, b) ∈ unlinked s.hist) ∨
          r = some (-1) ∧ u.refuses v.borrow = true)) ∨
        r = some (-1) ∧ (During cfg s₀ as c (·.Lacks id) ∨ AllocFailed cfg s₀ as c)
  | .deleteBook id _ =>
      (∃ v : Book, v.id = id ∧ During cfg s₀ as c (·.Lists v) ∧ ∃ b, (c, b) ∈ unlinked s.hist) ∨
        During cfg s₀ as c (·.Lacks id)

structure Linearized (cfg : Config) (s₀ : Sys) (as : List Action) (s : Sys) : Prop where
  met : ∀ (c : Nat) (f : Frame) b, s.frames[c]? = some f → f.pc.target = some b →
    (s.mem.book b).id = f.op.id ∧ During cfg s₀ as c (·.Lists (s.mem.book b))
  missed : ∀ (c : Nat) (f : Frame), s.frames[c]? = some f → f.pc = .walk .head →
    During cfg s₀ as c (·.Lacks f.op.id)
  answered : ∀ (c : Nat) (f : Frame) r, s.frames[c]? = some f → f.pc = .done r →
    Explained cfg s₀ as s c r f.op

variable {cfg : Config} {s₀ s s' t : Sys} {a : Action} {as : List Action} {xs xs' : List Addr}
  {ut ut' : Addr → Option Nat} {c : Nat} {f f' g : Frame} {alloc : Bool} {b x : Addr} {i : Int}
  {p : Ptr Addr} {r : Option Int} {P : Sys → Prop}

/-! ## Times of a run -/

theorem During.later (h : During cfg s₀ as c P) (a : Action) : During cfg s₀ (as ++ [a]) c P :=
  Once.later h [a]

theorem During.now (hrun : exec (Sys.step cfg) s₀ as = some s) (hf : s.frames[c]? = some f)
    (hin : f.pc.inside = true) (hP : P s) : During cfg s₀ as c P :=
  Once.now hrun ⟨⟨f, hf, hin⟩, hP⟩

theorem AllocFailed.later (h : AllocFailed cfg s₀ as c) (a : Action) :
    AllocFailed cfg s₀ (as ++ [a]) c := by
  obtain ⟨front, m, f, b, hfront, hm, hf, hpc⟩ := h
  exact ⟨front, m, f, b, hfront.trans (List.prefix_append _ _), hm, hf, hpc⟩

theorem Explained.later {op : Op} (h : Explained cfg s₀ as s c r op) (a : Action)
    (hhist : ∀ b, (c, b) ∈ unlinked s.hist → (c, b) ∈ unlinked s'.hist) :
    Explained cfg s₀ (as ++ [a]) s' c r op := by
  cases op with
  | addBook id name author | printBook id => trivial
  | isBorrowedBook id =>
      rcases h with ⟨v, hid, hr, hv⟩ | ⟨hr, hlacks⟩
      · exact .inl ⟨v, hid, hr, hv.later a⟩
      · exact .inr ⟨hr, hlacks.later a⟩
  | updateBook u id async =>
      rcases h with ⟨v, hid, hv, hcase⟩ | ⟨hr, hcase⟩
      · refine .inl ⟨v, hid, hv.later a, hcase.imp ?_ fun h => h⟩
        intro h
        obtain ⟨hr, hflag, b, hb⟩ := h
        exact ⟨hr, hflag, b, hhist b hb⟩
      · exact .inr ⟨hr, hcase.imp (fun h => h.later a) fun h => h.later a⟩
  | deleteBook id async =>
      rcases h with ⟨v, hid, hv, b, hb⟩ | hlacks
      · exact .inl ⟨v, hid, hv.later a, b, hhist b hb⟩
      · exact .inr (hlacks.later a)

theorem unlinked_step (hs : s.step cfg a = some s') {q : Nat × Addr} (hq : q ∈ unlinked s.hist) :
    q ∈ unlinked s'.hist := by
  have hcons : ∀ e, q ∈ unlinked (e :: s.hist) := by
    intro e
    obtain ⟨e', he', hu⟩ := List.mem_filterMap.mp hq
    exact List.mem_filterMap.mpr ⟨e', List.mem_cons_of_mem _ he', hu⟩
  rcases step_cases hs with ⟨op, -, rfl⟩ | ⟨k, al, f, t, -, hf, ht, rfl⟩ | ⟨i, b, r, -, -, -, rfl⟩
  · exact hq
  · cases ht with
    | replace | del | callRcu | free => exact hcons _
    | _ => exact hq
  · exact hq

/-! ## What a call remembers -/

/-- The return value of the call where it is settled. -/
def Pc.answer (m : Mem) (op : Op) : Pc → Option (Option Int)
  | .exit => some op.failure
  | .unlock _ | .leave _ | .reclaim _ | .sync .. | .free _ => some op.success
  | .late b => some (some (m.book b).borrow)
  | .done r => some r
  | _ => none

structure Remembers (cfg : Config) (s₀ : Sys) (as : List Action) (s : Sys) (xs : List Addr)
    (ut : Addr → Option Nat) (c : Nat) (f : Frame) : Prop where
  window : ∀ r, f.since = some r → ∀ b, Safe xs ut (some r) b →
    During cfg s₀ as c (·.Lists (s.mem.book b))
  ahead : ∀ p, f.pc.cursor = some p → During cfg s₀ as c (·.Lacks f.op.id) ∨
    Ahead s.mem.links (fun b => (s.mem.book b).id = f.op.id) p
  late : ∀ b, f.pc = .late b → Published xs ut b
  answer : ∀ r, f.pc.answer s.mem f.op = some r → Explained cfg s₀ as s c r f.op

namespace Remembers

theorem new (cfg : Config) (s₀ : Sys) (as : List Action) (s : Sys) (xs : List Addr)
    (ut : Addr → Option Nat) (c : Nat) (op : Op) :
    Remembers cfg s₀ as s xs ut c (Frame.new op) where
  window := fun _ h => by cases h
  ahead := fun _ h => by cases h
  late := fun _ h => by cases h
  answer := fun _ h => by cases h

theorem seen (h : Remembers cfg s₀ as s xs ut c f) (hcore : Core s xs ut)
    (hrun : exec (Sys.step cfg) s₀ as = some s) (hf : s.frames[c]? = some f)
    (hb : b ∈ f.pc.reads) : During cfg s₀ as c (·.Lists (s.mem.book b)) := by
  have hsafe := (hcore.frame c f hf).reads b hb
  cases hsince : f.since with
  | some r =>
      rw [hsince] at hsafe
      exact h.window r hsince b hsafe
  | none =>
      rcases hsafe with hb' | ⟨r, t, hr, -⟩
      · exact .now hrun hf (Pc.inside_of_reads hb) (hcore.lists_of_mem hb')
      · rw [hsince] at hr
        cases hr

end Remembers

/-! ## One step -/

theorem Trans.clock (ht : Trans cfg s c f alloc t) : t.clock = s.clock := by
  cases ht with
  | _ => rfl

theorem clock_step (hs : s.step cfg a = some s') : s'.clock = s.clock + 1 := by
  rcases step_cases hs with ⟨op, -, rfl⟩ | ⟨k, al, f, t, -, hf, ht, rfl⟩ | ⟨i, b, r, -, -, -, rfl⟩
  · rfl
  · exact congrArg (· + 1) ht.clock
  · rfl

/-- A critical section is the one that was open or begins now. -/
theorem Trans.since (ht : Trans cfg s c f alloc t) (hf : s.frames[c]? = some f)
    (hf' : t.frames[c]? = some f') {n : Nat} (hn : f'.since = some n) :
    f.since = some n ∨ n = s.clock := by
  cases ht with
  | quiet f' hl ha =>
      rw [eq_of_getElem?_set hf hf'] at hn
      cases hl with
      | enter hpc hdel hadd =>
          cases hn
          exact .inr rfl
      | wild p hpc hp | leave b hpc | found b hpc | exit hpc hdel => cases hn
      | _ => exact .inl hn
  | replaceFault b newB hpc hcfg hp =>
      rw [eq_of_getElem?_set hf hf'] at hn
      cases hn
  | _ =>
      rw [eq_of_getElem?_set hf hf'] at hn
      exact .inl hn

theorem Relists.unlinked_before (hr : Relists s a s' xs ut xs' ut') {n : Nat}
    (hb : ut' b = some n) : ut b = some n ∨ b ∈ xs := by
  cases hr with
  | same | added => exact .inl hb
  | replaced k al f x newB u id async ha hf hpc hop hx =>
      by_cases hbx : b = x
      · exact .inr (hbx ▸ hx)
      · rw [Function.update_of_ne hbx] at hb
        exact .inl hb
  | deleted k al f x ha hf hpc hx =>
      by_cases hbx : b = x
      · exact .inr (hbx ▸ hx)
      · rw [Function.update_of_ne hbx] at hb
        exact .inl hb

/-- Whatever a call may reach in its critical section was listed while the section was open. -/
theorem window_step (hcore : Core s xs ut) (hcore' : Core s' xs' ut')
    (hs : s.step cfg a = some s') (hr : Relists s a s' xs ut xs' ut')
    (hrun : exec (Sys.step cfg) s₀ (as ++ [a]) = some s') (hg : s'.frames[c]? = some g)
    (hfits : g.Fits) {n : Nat} (hn : g.since = some n)
    (hold : (∀ b, Safe xs ut (some n) b → During cfg s₀ as c (·.Lists (s.mem.book b))) ∨
      n = s.clock)
    (hb : Safe xs' ut' (some n) b) : During cfg s₀ (as ++ [a]) c (·.Lists (s'.mem.book b)) := by
  rcases hb with hb | ⟨n', k, hn', hk, hlt⟩
  · refine .now hrun hg ?_ (hcore'.lists_of_mem hb)
    by_contra hout
    rw [hfits.outside (by simpa using hout)] at hn
    cases hn
  · cases hn'
    rcases hold with hold | rfl
    · have hsafe : Safe xs ut (some n) b := by
        rcases hr.unlinked_before hk with hk | hb
        · exact .inr ⟨n, k, rfl, hk, hlt⟩
        · exact .inl hb
      rw [hcore.book_step hs hsafe.published]
      exact (hold b hsafe).later a
    · have hclock := (hcore'.gone b k hk).2.1
      rw [clock_step hs] at hclock
      omega

/-- A search still comes to a book with the id, or none is listed now. -/
theorem Relists.ahead (hr : Relists s a s' xs ut xs' ut') (hcore : Core s xs ut)
    (hcore' : Core s' xs' ut') (htyped : Typed s) (hchecked : AllChecked s)
    (hsearch : AllSearching s xs) (hs : s.step cfg a = some s')
    (hp : ∀ b, p = .node b → Published xs ut b)
    (h : Ahead s.mem.links (fun b => (s.mem.book b).id = i) p) :
    s'.Lacks i ∨ Ahead s'.mem.links (fun b => (s'.mem.book b).id = i) p := by
  have hnext : ∀ x b, Published xs ut x → s.mem.links.next (.node x) = .node b →
      Published xs ut b := fun x b hx hb => hcore.published_next hx hb
  have hkeep : ∀ x, Published xs ut x → (s.mem.book x).id = i → (s'.mem.book x).id = i := by
    intro x hx hid
    rw [hcore.book_step hs hx]
    exact hid
  cases hr with
  | same hsame hentry hhist =>
      exact .inr (h.mono _ hp hnext hkeep fun x hx => .inl (hsame x hx))
  | added k al f b ha hf hpc hframes hlinks hbook =>
      right
      rw [hlinks]
      exact h.insert hp hnext hkeep (hcore.fresh_unpublished hf (by simp [hpc, Pc.fresh]))
  | replaced k al f b newB u id async ha hf hpc hop hb hframes hlinks hbook =>
      right
      have hfresh := hcore.fresh_unpublished hf (n := newB) (by simp [hpc, Pc.fresh])
      have hcopy : s.mem.book newB = { s.mem.book b with borrow := u.flag } :=
        (hchecked k f hf).copied b newB u id async (by simp [hpc, Pc.copied]) hop
      rw [hlinks]
      refine h.replace hcore.ring hb (fun hm => hfresh (.inl hm)) hp hnext hkeep hfresh ?_
      rw [hbook, hcopy]
      exact fun hid => hid
  | deleted k al f b ha hf hpc hb hframes hlinks hbook =>
      -- the deleter has passed the books before `b`, so another one with the id is behind it
      have hdel : f.op.deletes = true := by
        simpa [hpc, Pc.suits] using (htyped f (List.mem_of_getElem? hf)).suits
      obtain ⟨ys, zs, hxs, hfront, hbefore⟩ :=
        (hsearch k f hf).passed hdel (.node b) (by simp [hpc, Pc.cursor])
      have hring := hcore.ring
      rw [hxs] at hring
      obtain ⟨zs, rfl, -⟩ := front_cons_of_node hring hfront
      have hid := (hchecked k f hf).found b (by simp [hpc, Pc.target])
      rcases hcore'.lacks_or i with hlacks | ⟨x, hx, hxi⟩
      · exact .inl hlacks
      · right
        rw [hlinks]
        refine h.unlink hring hp hnext hkeep fun hbi => ⟨x, ?_, hxi⟩
        rw [hbook] at hbi hxi
        obtain ⟨hx, hne⟩ := List.mem_filter.mp hx
        rw [hxs] at hx
        rcases List.mem_append.mp hx with hx | hx
        · exact absurd (hxi.trans (hbi.symm.trans hid)) (hbefore x hx)
        · exact (List.mem_cons.mp hx).resolve_left (by simpa using hne)

/-! ## How a return value gets settled -/

/-- The steps that settle the return value of a call. -/
inductive Settles (s : Sys) (c : Nat) (f : Frame) (alloc : Bool) (t : Sys) :
    Option Int → Prop where
  | added (hop : f.op.adds = true) (r : Option Int) : Settles s c f alloc t r
  | printed (b : Addr) (hpc : f.pc = .print b) (r : Option Int) : Settles s c f alloc t r
  | absent (hpc : f.pc = .walk .head) : Settles s c f alloc t f.op.failure
  | refused (b : Addr) (u : Update) (id : Int) (async : Bool) (hpc : f.pc = .test b)
      (hop : f.op = .updateBook u id async) (hu : u.refuses (s.mem.book b).borrow = true) :
      Settles s c f alloc t f.op.failure
  | noMemory (b : Addr) (hpc : f.pc = .alloc b) (ha : alloc = false) :
      Settles s c f alloc t f.op.failure
  | found (b : Addr) (hpc : f.pc = .found b) :
      Settles s c f alloc t (some (s.mem.book b).borrow)
  | replaced (b newB : Addr) (u : Update) (id : Int) (async : Bool) (hpc : f.pc = .replace b newB)
      (hop : f.op = .updateBook u id async) (hhist : (c, b) ∈ unlinked t.hist) :
      Settles s c f alloc t f.op.success
  | deleted (b : Addr) (hpc : f.pc = .del b) (hhist : (c, b) ∈ unlinked t.hist) :
      Settles s c f alloc t f.op.success

theorem Local.settles (hl : Local s f f') (hstart : f.pc ≠ .start)
    (ha : ∀ b, f.pc = .alloc b → alloc = false) (hr : f'.pc.answer s.mem f'.op = some r) :
    f.pc.answer s.mem f.op = some r ∨ Settles s c f alloc t r := by
  cases hl with
  | noMemory hpc | enter hpc => exact absurd hpc hstart
  | hit b hpc hid => cases hop : f.op <;> simp [Sys.hit, hop, Pc.answer] at hr
  | finish hpc =>
      cases hr
      exact .inr (.absent hpc)
  | refuse b u id async hpc hop hu =>
      cases hr
      exact .inr (.refused b u id async hpc hop hu)
  | giveUp b hpc =>
      cases hr
      exact .inr (.noMemory b hpc (ha b hpc))
  | found b hpc =>
      cases hr
      exact .inr (.found b hpc)
  | print b hpc => exact .inr (.printed b hpc r)
  | leave b hpc | sync b hpc | grace b n hpc | late b hpc | exit hpc =>
      left
      rw [hpc]
      exact hr
  | first | miss | wild | next | accept => cases hr

theorem answer_settles (h : s.frameStep cfg c f alloc = some t) (hf : s.frames[c]? = some f)
    (hfits : f.Fits) (hf' : t.frames[c]? = some f') (hr : f'.pc.answer t.mem f'.op = some r) :
    f.pc.answer s.mem f.op = some r ∨ Settles s c f alloc t r := by
  by_cases hstart : f.pc = .start
  · -- only `add_book` can return from its first step
    have hkind : f.op.adds = true ∨ f'.pc = .first := by
      unfold Sys.frameStep at h
      rw [hstart] at h
      cases hop : f.op with
      | addBook id name author => exact .inl rfl
      | deleteBook id async =>
          simp only [hop] at h
          split at h
          · cases h
            rw [eq_of_getElem?_set hf hf']
            exact .inr rfl
          · cases h
      | updateBook u id async | isBorrowedBook id | printBook id =>
          simp only [hop] at h
          cases h
          rw [eq_of_getElem?_set hf hf']
          exact .inr rfl
    rcases hkind with hop | hpc
    · exact .inr (.added hop r)
    · rw [hpc] at hr
      cases hr
  · cases frameStep_trans h with
    | quiet f' hl ha =>
        rw [eq_of_getElem?_set hf hf'] at hr
        exact hl.settles hstart ha hr
    | acquire pc hfree hpc =>
        rw [eq_of_getElem?_set hf hf'] at hr
        rcases hpc with ⟨hpc, -, -⟩ | ⟨b, newB, -, rfl⟩ | ⟨b, -, rfl⟩
        · exact absurd hpc hstart
        · cases hr
        · cases hr
    | release pc hpc =>
        rw [eq_of_getElem?_set hf hf'] at hr
        rcases hpc with ⟨b, hpc, rfl⟩ | ⟨hpc, rfl⟩ | ⟨hpc, -, rfl⟩
        · left
          rw [hpc]
          cases hdel : f.op.deletes <;> simpa [hdel, Pc.answer] using hr
        · exact .inr (.added (by simpa [hpc, Pc.suits] using hfits.suits) r)
        · left
          rw [hpc]
          exact hr
    | alloc pc ha hpc =>
        rw [eq_of_getElem?_set hf hf'] at hr
        rcases hpc with ⟨id, name, author, -, hpc, -⟩ | ⟨b, -, rfl⟩
        · exact absurd hpc hstart
        · cases hr
    | replace b newB u id async hpc hop hp =>
        rw [eq_of_getElem?_set hf hf'] at hr
        cases hr
        exact .inr (.replaced b newB u id async hpc hop (List.mem_cons_self ..))
    | del b hpc hp =>
        rw [eq_of_getElem?_set hf hf'] at hr
        cases hr
        exact .inr (.deleted b hpc (List.mem_cons_self ..))
    | callRcu b hpc ha | free b hpc =>
        rw [eq_of_getElem?_set hf hf'] at hr
        left
        rw [hpc]
        exact hr
    | copy | init | replaceFault | delFault | add =>
        rw [eq_of_getElem?_set hf hf'] at hr
        cases hr

theorem Settles.explained (h : Settles s c f alloc t r) (hcore : Core s xs ut)
    (hm : Remembers cfg s₀ as s xs ut c f) (hchecked : Checked s.mem f) (hfits : f.Fits)
    (hrun : exec (Sys.step cfg) s₀ as = some s) (hf : s.frames[c]? = some f) :
    Explained cfg s₀ (as ++ [.run c alloc]) t c r f.op := by
  have hs := hfits.suits
  have seen : ∀ b, f.pc.target = some b → (s.mem.book b).id = f.op.id ∧
      During cfg s₀ (as ++ [.run c alloc]) c (·.Lists (s.mem.book b)) := fun b hb =>
    ⟨hchecked.found b hb, (hm.seen hcore hrun hf (Pc.reads_of_target hb)).later _⟩
  cases h with
  | added hop r =>
      cases hop' : f.op <;> simp [Op.adds, hop'] at hop
      trivial
  | printed b hpc r =>
      have hop : f.op = .printBook f.op.id := by simpa [hpc, Pc.suits] using hs
      rw [hop]
      trivial
  | absent hpc =>
      have hlacks : During cfg s₀ (as ++ [.run c alloc]) c (·.Lacks f.op.id) := by
        rcases hm.ahead .head (by simp [hpc, Pc.cursor]) with hlacks | hahead
        · exact hlacks.later _
        · exact absurd hahead not_ahead_head
      cases hop : f.op with
      | addBook id name author | printBook id => trivial
      | isBorrowedBook id =>
          rw [hop] at hlacks
          exact .inr ⟨rfl, hlacks⟩
      | updateBook u id async =>
          rw [hop] at hlacks
          exact .inr ⟨rfl, .inl hlacks⟩
      | deleteBook id async =>
          rw [hop] at hlacks
          exact .inr hlacks
  | refused b u id async hpc hop hu =>
      obtain ⟨hid, hb⟩ := seen b (by simp [hpc, Pc.target])
      rw [hop] at hid ⊢
      exact .inl ⟨s.mem.book b, hid, hb, .inr ⟨rfl, hu⟩⟩
  | noMemory b hpc ha =>
      obtain ⟨u, id, async, hop⟩ := hfits.op_update (by simp [hpc, Pc.suits])
      rw [hop]
      subst ha
      exact .inr ⟨rfl, .inr ⟨as, s, f, b, List.prefix_refl _, hrun, hf, hpc⟩⟩
  | found b hpc =>
      obtain ⟨hid, hb⟩ := seen b (by simp [hpc, Pc.target])
      have hop : f.op = .isBorrowedBook f.op.id := by simpa [hpc, Pc.suits] using hs
      rw [hop]
      exact .inl ⟨s.mem.book b, hid, rfl, hb⟩
  | replaced b newB u id async hpc hop hhist =>
      obtain ⟨hid, hb⟩ := seen b (by simp [hpc, Pc.target])
      have hflag := hchecked.passed b u id async (by simp [hpc, Pc.chosen]) hop
      rw [hop] at hid ⊢
      exact .inl ⟨s.mem.book b, hid, hb, .inl ⟨rfl, hflag, b, hhist⟩⟩
  | deleted b hpc hhist =>
      obtain ⟨hid, hb⟩ := seen b (by simp [hpc, Pc.target])
      have hdel : f.op.deletes = true := by simpa [hpc, Pc.suits] using hs
      cases hop : f.op with
      | deleteBook id async =>
          rw [hop] at hid
          exact .inl ⟨s.mem.book b, hid, hb, b, hhist⟩
      | _ => simp [hop, Op.deletes] at hdel

/-! ## Every run -/

/-- A settled value stays, since the book of a late load is written no more. -/
theorem answer_kept (hcore : Core s xs ut) (hm : Remembers cfg s₀ as s xs ut c f)
    (hs : s.step cfg a = some s') : f.pc.answer s'.mem f.op = f.pc.answer s.mem f.op := by
  cases hpc : f.pc with
  | late b =>
      have hbook := hcore.book_step hs (hm.late b hpc)
      simp only [Pc.answer, hbook]
  | _ => rfl

namespace Remembers

theorem other (h : Remembers cfg s₀ as s xs ut c f) (hsound : Sound s xs ut)
    (hsound' : Sound s' xs' ut') (hsearch : AllSearching s xs) (hs : s.step cfg a = some s')
    (hr : Relists s a s' xs ut xs' ut') (hrun : exec (Sys.step cfg) s₀ (as ++ [a]) = some s')
    (hf : s.frames[c]? = some f) (hf' : s'.frames[c]? = some f) :
    Remembers cfg s₀ (as ++ [a]) s' xs' ut' c f where
  window := by
    intro n hn b hb
    exact window_step hsound.core hsound'.core hs hr hrun hf'
      (hsound'.typed f (List.mem_of_getElem? hf')) hn (.inl (h.window n hn)) hb
  ahead := by
    intro p hp
    rcases h.ahead p hp with hlacks | hahead
    · exact .inl (hlacks.later a)
    · have hpub : ∀ b, p = .node b → Published xs ut b := by
        intro b hb
        subst hb
        exact ((hsound.core.frame c f hf).reads b (Pc.reads_of_cursor hp)).published
      rcases hr.ahead hsound.core hsound'.core hsound.typed hsound.checked hsearch hs hpub hahead with
        hlacks | hahead
      · exact .inl (.now hrun hf' (Pc.inside_of_cursor hp) hlacks)
      · exact .inr hahead
  late := fun b hpc => hr.published (h.late b hpc)
  answer := by
    intro r hr'
    rw [answer_kept hsound.core h hs] at hr'
    exact (h.answer r hr').later a fun b hb => unlinked_step hs hb

theorem own (h : Remembers cfg s₀ as s xs ut c f) (hsound : Sound s xs ut)
    (hsound' : Sound t.tick xs' ut') (hsearch : AllSearching s xs)
    (ht : s.frameStep cfg c f alloc = some t)
    (hs : s.step cfg (.run c alloc) = some t.tick)
    (hr : Relists s (.run c alloc) t.tick xs ut xs' ut')
    (hrun : exec (Sys.step cfg) s₀ as = some s)
    (hrun' : exec (Sys.step cfg) s₀ (as ++ [.run c alloc]) = some t.tick)
    (hf : s.frames[c]? = some f) (hg : t.tick.frames[c]? = some g) :
    Remembers cfg s₀ (as ++ [.run c alloc]) t.tick xs' ut' c g := by
  have htr := frameStep_trans ht
  have hcore := hsound.core
  have hfits := hsound.typed f (List.mem_of_getElem? hf)
  have hfits' := hsound'.typed g (List.mem_of_getElem? hg)
  have hop : g.op = f.op := by
    obtain ⟨f', hframes, hop, -⟩ := htr.fits hfits
    have hg' : t.frames[c]? = some g := hg
    rw [hframes] at hg'
    rw [eq_of_getElem?_set hf hg', hop]
  constructor
  case window =>
    intro n hn b hb
    refine window_step hcore hsound'.core hs hr hrun' hg hfits' hn ?_ hb
    rcases Trans.since (t := t) htr hf hg hn with hn | hn
    · exact .inl (h.window n hn)
    · exact .inr hn
  case ahead =>
    intro p hp
    obtain ⟨hmem, hin, -, hcase⟩ := Trans.cursor (t := t) htr hf hg hp
    -- the search goes on in the memory it has read
    have hahead : s.Lacks f.op.id ∨ During cfg s₀ as c (·.Lacks f.op.id) ∨
        Ahead s.mem.links (fun b => (s.mem.book b).id = f.op.id) p := by
      rcases hcase with ⟨-, rfl⟩ | hp | ⟨b, hpc, rfl⟩
      · rcases hcore.lacks_or f.op.id with hlacks | hex
        · exact .inl hlacks
        · have hring : IsRing s.mem.links ([] ++ xs) := hcore.ring
          rw [hcore.ring.next_head]
          exact .inr (.inr (hring.ahead_front hex))
      · exact .inr (h.ahead p hp)
      · rcases h.ahead (.node b) (by simp [hpc, Pc.cursor]) with hlacks | hahead
        · exact .inr (.inl hlacks)
        · exact .inr (.inr (hahead.next ((hsearch c f hf).missed b hpc)))
    rw [hop]
    change _ ∨ Ahead t.mem.links (fun b => (t.mem.book b).id = f.op.id) p
    rw [hmem]
    rcases hahead with hlacks | hlacks | hahead
    · have hnow : During cfg s₀ as c (·.Lacks f.op.id) := .now hrun hf hin hlacks
      exact .inl (hnow.later _)
    · exact .inl (hlacks.later _)
    · exact .inr hahead
  case late =>
    intro b hpc
    obtain ⟨hfound, -⟩ := Trans.late (t := t) htr hf hg hpc
    exact hr.published ((hcore.frame c f hf).reads b (by simp [hfound, Pc.reads])).published
  case answer =>
    intro r hr'
    rw [hop]
    rcases answer_settles ht hf hfits hg hr' with hold | hnew
    · exact (h.answer r hold).later _ fun b hb => unlinked_step hs hb
    · exact hnew.explained hcore h (hsound.checked c f hf) hfits hrun hf

end Remembers

structure Traced (cfg : Config) (s₀ : Sys) (as : List Action) (s : Sys) (xs : List Addr)
    (ut : Addr → Option Nat) : Prop where
  sound : Sound s xs ut
  searching : AllSearching s xs
  remembers : ∀ (c : Nat) (f : Frame), s.frames[c]? = some f → Remembers cfg s₀ as s xs ut c f

theorem Traced.relist (h : Traced cfg s₀ as s xs ut) (hrun : exec (Sys.step cfg) s₀ as = some s)
    (hs : s.step cfg a = some s') (hsound' : Sound s' xs' ut')
    (hr : Relists s a s' xs ut xs' ut') : Traced cfg s₀ (as ++ [a]) s' xs' ut' := by
  have hrun' := exec_snoc hrun hs
  refine ⟨hsound', h.searching.step h.sound.core h.sound.typed hs hr, ?_⟩
  intro c g hg
  rcases step_frame h.sound.typed hs hg with ⟨op, -, -, rfl⟩ | ⟨al, f, t, rfl, hf, ht, rfl⟩ | ⟨hf, -⟩
  · exact .new ..
  · exact (h.remembers c f hf).own h.sound hsound' h.searching ht hs hr hrun hrun' hf hg
  · exact (h.remembers c g hf).other h.sound hsound' h.searching hs hr hrun' hf hg

theorem Traced.step (h : Traced cfg s₀ as s xs ut) (hrun : exec (Sys.step cfg) s₀ as = some s)
    (hg : ReplacesLinked cfg s a) (hs : s.step cfg a = some s') :
    ∃ xs' ut', Traced cfg s₀ (as ++ [a]) s' xs' ut' := by
  obtain ⟨xs', ut', hsound', hr⟩ := h.sound.step hg hs
  exact ⟨xs', ut', h.relist hrun hs hsound' hr⟩

theorem Booted.traced {m : Mem} (h : Booted m xs) (ops : List Op) :
    Traced cfg (Sys.boot m ops) [] (Sys.boot m ops) xs (fun _ => none) := by
  refine ⟨h.sound ops, .boot m ops xs, ?_⟩
  intro c f hf
  obtain ⟨op, -, rfl⟩ := List.mem_map.mp (List.mem_of_getElem? hf)
  exact .new ..

theorem Traced.linearized (h : Traced cfg s₀ as s xs ut)
    (hrun : exec (Sys.step cfg) s₀ as = some s) : Linearized cfg s₀ as s where
  met := by
    intro c f b hf hb
    exact ⟨(h.sound.checked c f hf).found b hb,
      (h.remembers c f hf).seen h.sound.core hrun hf (Pc.reads_of_target hb)⟩
  missed := by
    intro c f hf hpc
    rcases (h.remembers c f hf).ahead .head (by simp [hpc, Pc.cursor]) with hlacks | hahead
    · exact hlacks
    · exact absurd hahead not_ahead_head
  answered := by
    intro c f r hf hpc
    exact (h.remembers c f hf).answer r (by simp [hpc, Pc.answer])

/-- As long as replacements find the old object linked, every search sees the list of one moment:
what it meets was listed with these very fields, and it misses an id only if no listed book had it
at some time since the search began. The load behind the critical section counts as one of the object
that was met, so that nothing may be freed before it. -/
theorem searches_linearize {m : Mem} (hm : Booted m xs) (ops : List Op) {as : List Action}
    (hg : Along (Sys.step cfg) (fun s a => ReplacesLinked cfg s a ∧ LateLoadsDone s a)
      (Sys.boot m ops) as)
    (hrun : exec (Sys.step cfg) (Sys.boot m ops) as = some s) :
    Linearized cfg (Sys.boot m ops) as s := by
  have hinv : ∃ xs ut, Traced cfg (Sys.boot m ops) as s xs ut := by
    refine exec_history (I := fun as s => ∃ xs ut, Traced cfg (Sys.boot m ops) as s xs ut) ?_
      ⟨xs, _, hm.traced ops⟩ hg hrun
    intro as s a s' hrun hI ha hs
    obtain ⟨xs, ut, h⟩ := hI
    exact h.step hrun ha.1 hs
  obtain ⟨xs, ut, h⟩ := hinv
  exact h.linearized hrun

/-- A book is deleted and another one with its id added between two steps of a search: the search
answers for the deleted one. -/
theorem search_answers_for_deleted : ∃ s,
    exec (Sys.step ⟨false⟩)
      (Sys.boot oneBook [.isBorrowedBook 0, .deleteBook 0 true, .addBook 0 [] []])
      (List.replicate 2 (.run 0 true) ++ List.replicate 6 (.run 1 true) ++
        List.replicate 5 (.run 2 true) ++ List.replicate 3 (.run 0 true)) = some s ∧
    s.frames.map Frame.pc = [.done (some 0), .done none, .done none] ∧ s.mem.onList = [1] ∧
    Linearized ⟨false⟩
      (Sys.boot oneBook [.isBorrowedBook 0, .deleteBook 0 true, .addBook 0 [] []])
      (List.replicate 2 (.run 0 true) ++ List.replicate 6 (.run 1 true) ++
        List.replicate 5 (.run 2 true) ++ List.replicate 3 (.run 0 true)) s := by
  obtain ⟨s, hs, hend⟩ := Option.map_eq_some_iff.mp (show (exec (Sys.step ⟨false⟩)
      (Sys.boot oneBook [.isBorrowedBook 0, .deleteBook 0 true, .addBook 0 [] []])
      (List.replicate 2 (.run 0 true) ++ List.replicate 6 (.run 1 true) ++
        List.replicate 5 (.run 2 true) ++ List.replicate 3 (.run 0 true))).map
      (fun s => (s.frames.map Frame.pc, s.mem.onList)) =
      some ([.done (some 0), .done none, .done none], [1]) by decide)
  obtain ⟨hpc, hlist⟩ := Prod.mk.inj hend
  exact ⟨s, hs, hpc, hlist, searches_linearize oneBook_booted _ (by decide) hs⟩

end KernelTrg.Books
