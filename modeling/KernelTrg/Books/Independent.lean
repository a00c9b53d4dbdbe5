import KernelTrg.Books.Lending
import KernelTrg.Books.Changes
import KernelTrg.Books.Progress

/-!
# Updates of different books commute

Every object carries the place of its book in the initial catalogue. The list stays
in the order of these places, the forward link of an unlinked object leads onwards
without passing any book that is still listed, and no call but the one that targets
a book unlinks its object; so each call finds its book in the state it had at the
start.
-/

namespace KernelTrg.Books

open LinkRing Runs

variable {cfg : Config} {s s' t : Sys} {a : Action} {xs xs' : List Addr}
  {ut ut' : Addr → Option Nat} {k : Nat} {f f' : Frame} {b x : Addr}
  {c : Catalogue} {chs done : List Change} {ch ch' : Change} {e : Entry} {i j : Int}

/-! ## Places -/

/-- The place of an id in the catalogue, counted from one; past the end when it is absent. -/
def place (c : Catalogue) (i : Int) : Nat := (c.map Entry.id).idxOf i + 1

theorem place_le (hi : i ∈ c.map Entry.id) : place c i ≤ c.length := by
  have hlt := List.idxOf_lt_length_iff.mpr hi
  rw [List.length_map] at hlt
  exact hlt

theorem place_inj (hi : i ∈ c.map Entry.id) (h : place c i = place c j) : i = j :=
  (List.idxOf_inj hi).mp (Nat.succ.inj h)

theorem place_absent (hi : i ∉ c.map Entry.id) : place c i = c.length + 1 := by
  unfold place
  rw [List.idxOf_of_notMem hi, List.length_map]

theorem not_applies_of_absent (h : ch.id ∉ c.map Entry.id) : c.any ch.applies = false := by
  rw [List.any_eq_false]
  intro e he hap
  exact h (Change.id_of_applies hap ▸ List.mem_map_of_mem he)

/-- The objects on the list are in the order of their places. -/
theorem sorted_of_shows {m : Mem} (hc : (c.map Entry.id).Nodup)
    (hshows : xs.map m.book = (replay c done).map Entry.toBook) :
    xs.Pairwise fun x y => place c (m.book x).id < place c (m.book y).id := by
  have hbase : (c.map Entry.id).Pairwise fun i j => place c i < place c j := by
    rw [List.pairwise_iff_getElem]
    intro p q hp hq hlt
    simp only [place, hc.idxOf_getElem]
    omega
  have hids : xs.map (fun x => (m.book x).id) = (replay c done).map Entry.id := by
    have hmap := congrArg (List.map Book.id) hshows
    simpa [Function.comp_def, Entry.toBook] using hmap
  have hsub := hbase.sublist (replay_ids c done)
  rw [← hids, List.pairwise_map] at hsub
  exact hsub

/-! ## The invariant -/

/-- What a call knows at each step about its book in the initial catalogue `c`. -/
def SearchOk (c : Catalogue) (m : Mem) (done : List Change) (ch : Change) : Pc → Prop
  | .walk (.node x) => place c (m.book x).id ≤ place c ch.id
  | .next x => place c (m.book x).id < place c ch.id
  | .walk .head => ch.id ∉ c.map Entry.id
  | .walk _ | .oops => False
  | .exit => c.any ch.applies = false
  | .done r => ch ∉ done → c.any ch.applies = false ∧ r = ch.op.failure
  | _ => True

/-- `done` are the calls that have made their change, in the order they made it. -/
structure Changed (c : Catalogue) (chs : List Change) (s : Sys) (xs : List Addr)
    (ut : Addr → Option Nat) (done : List Change) : Prop where
  shows : xs.map s.mem.book = (replay c done).map Entry.toBook
  doneNodup : (done.map Change.id).Nodup
  doneOf : ∀ ch ∈ done, ch ∈ chs
  doneIff : ∀ k ch, chs[k]? = some ch → (ch ∈ done ↔ ∃ b, (k, b) ∈ unlinked s.hist)
  applied : ∀ ch ∈ done, c.any ch.applies = true
  stale : ∀ x t, ut x = some t → (s.mem.book x).id ∈ c.map Entry.id ∧
    Leads (fun y => place c (s.mem.book y).id) xs (place c (s.mem.book x).id)
      (s.mem.links.next (.node x)) ∧
    ∃ k ch, chs[k]? = some ch ∧ (k, x) ∈ unlinked s.hist ∧ ch.id = (s.mem.book x).id

structure Commuting (c : Catalogue) (chs : List Change) (s : Sys) (xs : List Addr)
    (ut : Addr → Option Nat) (done : List Change) : Prop extends
    Changed c chs s xs ut done where
  calls : s.frames.map Frame.op = chs.map Change.op
  search : ∀ (k : Nat) (f : Frame) ch, s.frames[k]? = some f → chs[k]? = some ch →
    SearchOk c s.mem done ch f.pc

theorem change_unique (hchs : (chs.map Change.id).Nodup) (h : ch ∈ chs) (h' : ch' ∈ chs)
    (hid : ch.id = ch'.id) : ch = ch' := List.inj_on_of_nodup_map hchs h h' hid

namespace Commuting

theorem change (h : Commuting c chs s xs ut done) (hf : s.frames[k]? = some f) :
    ∃ ch, chs[k]? = some ch ∧ f.op = ch.op := by
  have hop : (chs.map Change.op)[k]? = some f.op := by
    rw [← h.calls, List.getElem?_map, hf]
    rfl
  rw [List.getElem?_map] at hop
  obtain ⟨ch, hch, heq⟩ := Option.map_eq_some_iff.mp hop
  exact ⟨ch, hch, heq.symm⟩

theorem not_done (h : Commuting c chs s xs ut done) (hrec : Recorded s)
    (hf : s.frames[k]? = some f) (hch : chs[k]? = some ch) (hd : f.pc.doomed = none)
    (hdone : ∀ r, f.pc ≠ .done r) : ch ∉ done := by
  intro hin
  obtain ⟨b, hb⟩ := (h.doneIff k ch hch).mp hin
  exact hrec.not_unlinked hf hd hdone b hb

theorem done_ne (h : Commuting c chs s xs ut done) (hchs : (chs.map Change.id).Nodup)
    (hch : ch ∈ chs) (hnot : ch ∉ done) : ∀ d ∈ done, d.id ≠ ch.id := by
  intro d hd hid
  exact hnot (change_unique hchs (h.doneOf d hd) hch hid ▸ hd)

/-- As long as its call has made no change, a book of the initial catalogue is listed. -/
theorem present (h : Commuting c chs s xs ut done) (hchs : (chs.map Change.id).Nodup)
    (hch : ch ∈ chs) (hnot : ch ∉ done) (hid : ch.id ∈ c.map Entry.id) :
    ∃ z ∈ xs, (s.mem.book z).id = ch.id := by
  obtain ⟨e, he, heid⟩ := List.mem_map.mp hid
  have hin := (mem_replay (h.done_ne hchs hch hnot) heid).mpr he
  have hbook := List.mem_map_of_mem (f := Entry.toBook) hin
  rw [← h.shows] at hbook
  obtain ⟨z, hz, hzb⟩ := List.mem_map.mp hbook
  exact ⟨z, hz, by rw [hzb]; exact heid⟩

theorem entry_of (h : Commuting c chs s xs ut done) (hchs : (chs.map Change.id).Nodup)
    (hch : ch ∈ chs) (hnot : ch ∉ done) (hb : b ∈ xs) (hid : (s.mem.book b).id = ch.id) :
    ∃ e ∈ c, s.mem.book b = e.toBook ∧ e.id = ch.id := by
  have hbook := List.mem_map_of_mem (f := s.mem.book) hb
  rw [h.shows] at hbook
  obtain ⟨e, he, heb⟩ := List.mem_map.mp hbook
  have heid : e.id = ch.id := by
    rw [← hid, ← heb]
    rfl
  exact ⟨e, (mem_replay (h.done_ne hchs hch hnot) heid).mp he, heb.symm, heid⟩

/-- The object a call found is still listed until the call itself unlinks it. -/
theorem target_mem (h : Commuting c chs s xs ut done) (hchs : (chs.map Change.id).Nodup)
    (hch : ch ∈ chs) (hnot : ch ∉ done) (hx : Published xs ut x)
    (hid : (s.mem.book x).id = ch.id) : x ∈ xs := by
  rcases hx with hx | ⟨t, ht⟩
  · exact hx
  · obtain ⟨-, -, k, ch', hch', hun, hid'⟩ := h.stale x t ht
    have heq := change_unique hchs (List.mem_of_getElem? hch') hch (hid'.trans hid)
    exact absurd (heq ▸ (h.doneIff k ch' hch').mpr ⟨x, hun⟩) hnot

theorem known (h : Commuting c chs s xs ut done) (hx : Published xs ut x) :
    (s.mem.book x).id ∈ c.map Entry.id := by
  rcases hx with hx | ⟨t, ht⟩
  · have hbook := List.mem_map_of_mem (f := s.mem.book) hx
    rw [h.shows] at hbook
    obtain ⟨e, he, heb⟩ := List.mem_map.mp hbook
    rw [← heb]
    exact (replay_ids c done).subset (List.mem_map_of_mem he)
  · exact (h.stale x t ht).1

/-- Every published object leads on without passing a listed book. -/
theorem leads (h : Commuting c chs s xs ut done) (hc : (c.map Entry.id).Nodup)
    (hcore : Core s xs ut) (hx : Published xs ut x) :
    Leads (fun y => place c (s.mem.book y).id) xs (place c (s.mem.book x).id)
      (s.mem.links.next (.node x)) := by
  rcases hx with hx | ⟨t, ht⟩
  · exact hcore.ring.leads_node (r := fun y => place c (s.mem.book y).id)
      (sorted_of_shows hc h.shows) hx
  · exact (h.stale x t ht).2.1

/-- A cursor that leads past no listed book is where the search of `ch` wants it. -/
theorem cursor (h : Commuting c chs s xs ut done) (hchs : (chs.map Change.id).Nodup)
    (hch : ch ∈ chs) (hnot : ch ∉ done) {n : Nat} {p : Ptr Addr} (hn : n < place c ch.id)
    (hp : Leads (fun y => place c (s.mem.book y).id) xs n p)
    (hpub : ∀ y, p = .node y → Published xs ut y) : SearchOk c s.mem done ch (.walk p) := by
  rcases hp with ⟨rfl, hall⟩ | ⟨y, rfl, -, hall⟩
  · intro hid
    obtain ⟨z, hz, hzid⟩ := h.present hchs hch hnot hid
    have hle := hall z hz
    simp only [hzid] at hle
    omega
  · change place c (s.mem.book y).id ≤ place c ch.id
    by_cases hid : ch.id ∈ c.map Entry.id
    · obtain ⟨z, hz, hzid⟩ := h.present hchs hch hnot hid
      have hle := hall z hz
      simp only [hzid] at hle
      exact hle hn
    · have hy := place_le (h.known (hpub y rfl))
      rw [place_absent hid]
      omega

/-! ## One step -/

theorem chosen_mem (h : Commuting c chs s xs ut done) (hS : Sound s xs ut)
    (hchs : (chs.map Change.id).Nodup) (hf : s.frames[k]? = some f) (hch : chs[k]? = some ch)
    (hop : f.op = ch.op) (hb : f.pc.target = some b) :
    ch ∉ done ∧ b ∈ xs ∧ (s.mem.book b).id = ch.id := by
  have hnot : ch ∉ done := by
    apply h.not_done hS.recorded hf hch
    · cases hpc : f.pc <;> simp_all [Pc.target, Pc.doomed]
    · intro r hr
      rw [hr] at hb
      cases hb
  have hid : (s.mem.book b).id = ch.id := by
    rw [(hS.checked k f hf).found b hb, hop, ch.op_id]
  have hsafe := (hS.core.frame k f hf).reads b (Pc.reads_of_target hb)
  exact ⟨hnot, h.target_mem hchs (List.mem_of_getElem? hch) hnot hsafe.published hid, hid⟩

/-- No call replaces an object that was unlinked under it. -/
theorem replacesLinked (h : Commuting c chs s xs ut done) (hS : Sound s xs ut)
    (hchs : (chs.map Change.id).Nodup) : ReplacesLinked cfg s a := by
  right
  intro f hf b hb
  cases a with
  | run k alloc =>
      obtain ⟨ch, hch, hop⟩ := h.change hf
      have ht : f.pc.target = some b := by cases hpc : f.pc <;> simp_all [Pc.replacing, Pc.target]
      exact hS.core.prev_of_mem (h.chosen_mem hS hchs hf hch hop ht).2.1
  | call op => cases hf
  | callback i => cases hf

theorem refused (h : Commuting c chs s xs ut done) (hc : (c.map Entry.id).Nodup)
    (hchs : (chs.map Change.id).Nodup) (hch : ch ∈ chs) (hnot : ch ∉ done) (hb : b ∈ xs)
    (hid : (s.mem.book b).id = ch.id) {u : Update} {id : Int} {async : Bool}
    (hop : ch.op = .updateBook u id async) :
    u.refuses (s.mem.book b).borrow = !c.any ch.applies := by
  obtain ⟨e, he, hbook, heid⟩ := h.entry_of hchs hch hnot hb hid
  obtain ⟨ca, cb, rfl⟩ := List.append_of_mem he
  have hany := any_applies_split hc heid
  rw [hany, hbook, u.refuses_toBook]
  cases ch with
  | update u' id' async' =>
      cases hop
      have heid' : e.id = id := heid
      cases hbo : e.borrowed <;> cases hul : u.lends <;> simp [Change.applies, heid', hbo, hul]
  | delete id' async' => cases hop

theorem search_own (h : Commuting c chs s xs ut done) (hS : Sound s xs ut)
    (hc : (c.map Entry.id).Nodup) (hchs : (chs.map Change.id).Nodup)
    (hf : s.frames[k]? = some f) (hch : chs[k]? = some ch) (hop : f.op = ch.op)
    (ht : Trans cfg s k f true t) (hf' : t.frames[k]? = some f') {done' : List Change}
    (hsub : ∀ d ∈ done, d ∈ done') : SearchOk c t.mem done' ch f'.pc := by
  have hmem := List.mem_of_getElem? hch
  have hk := h.search k f ch hf hch
  have hfits := hS.typed f (List.mem_of_getElem? hf)
  have hreads := (hS.core.frame k f hf).reads
  have hnoadd : f.op.adds = false := by rw [hop]; cases ch <;> rfl
  have weaken : ∀ {p : Pc}, SearchOk c s.mem done ch p → SearchOk c s.mem done' ch p := by
    intro p hp
    cases p with
    | done r => exact fun hnot => hp fun hin => hnot (hsub ch hin)
    | walk q => cases q <;> exact hp
    | _ => exact hp
  cases ht with
  | quiet g hl ha =>
      rw [eq_of_getElem?_set hf hf']
      apply weaken
      cases hl with
      | noMemory hpc hsucc hdel =>
          rw [hop] at hsucc hdel
          cases ch with
          | update u id async => cases hsucc
          | delete id async => cases hdel
      | first hpc =>
          have hnot := h.not_done hS.recorded hf hch (by simp [hpc, Pc.doomed]) (by simp [hpc])
          apply h.cursor hchs hmem hnot (n := 0) (Nat.succ_pos _)
          · exact hS.core.ring.leads_head (r := fun y => place c (s.mem.book y).id)
              (sorted_of_shows hc h.shows) fun x _ => Nat.succ_pos _
          · intro y hy
            rcases hS.core.safe_first none with hh | ⟨z, hz, hsafe⟩
            · rw [hh] at hy
              cases hy
            · cases hz.symm.trans hy
              exact hsafe.published
      | finish hpc =>
          rw [hpc] at hk
          exact not_applies_of_absent hk
      | hit x hpc hid =>
          change SearchOk c s.mem done ch (Sys.hit f.op x)
          rw [hop]
          cases ch <;> exact trivial
      | miss x hpc hid =>
          rw [hpc] at hk
          rw [hop, ch.op_id] at hid
          have hpub := (hreads x (by simp [hpc, Pc.reads])).published
          exact Nat.lt_of_le_of_ne hk fun heq => hid (place_inj (h.known hpub) heq)
      | wild p hpc hp =>
          rw [hpc] at hk
          rcases hp with rfl | rfl <;> exact hk
      | next x hpc =>
          rw [hpc] at hk
          have hnot := h.not_done hS.recorded hf hch (by simp [hpc, Pc.doomed]) (by simp [hpc])
          have hsafe := hreads x (by simp [hpc, Pc.reads])
          apply h.cursor hchs hmem hnot hk (h.leads hc hS.core hsafe.published)
          intro y hy
          rcases hS.core.safe_next hsafe with hh | ⟨z, hz, hsafe'⟩
          · rw [hh] at hy
            cases hy
          · cases hz.symm.trans hy
            exact hsafe'.published
      | refuse x u id async hpc hop' hr =>
          obtain ⟨hnot, hx, hid⟩ := h.chosen_mem hS hchs hf hch hop (b := x) (by simp [hpc, Pc.target])
          have href := h.refused hc hchs hmem hnot hx hid (hop.symm.trans hop')
          change c.any ch.applies = false
          rw [hr] at href
          simpa using href.symm
      | giveUp x hpc => cases ha x hpc
      | found x hpc | late x hpc | print x hpc =>
          have hs := hfits.suits
          rw [hpc, hop] at hs
          cases ch <;> simp [Pc.suits, Change.op] at hs
      | exit hpc hdel =>
          rw [hpc] at hk
          exact fun _ => ⟨hk, by rw [hop]⟩
      | enter hpc | accept x u id async hpc | leave x hpc | sync x hpc | grace x r hpc => exact trivial
  | acquire pc hfree hpc =>
      rw [eq_of_getElem?_set hf hf']
      rcases hpc with ⟨-, -, rfl⟩ | ⟨x, newB, -, rfl⟩ | ⟨x, -, rfl⟩ <;> exact trivial
  | release pc hpc =>
      rw [eq_of_getElem?_set hf hf']
      rcases hpc with ⟨x, -, rfl⟩ | ⟨hpc, rfl⟩ | ⟨hpc, -, rfl⟩
      · cases hdel : f.op.deletes <;> exact trivial
      · have hs := hfits.suits
        rw [hpc] at hs
        simp [Pc.suits, hnoadd] at hs
      · rw [hpc] at hk
        exact fun _ => ⟨hk, by rw [hop]⟩
  | alloc pc ha hpc =>
      rw [eq_of_getElem?_set hf hf']
      rcases hpc with ⟨id, name, author, -, -, rfl⟩ | ⟨x, -, rfl⟩ <;> exact trivial
  | replaceFault x newB hpc hcfg hp =>
      have hx := (h.chosen_mem hS hchs hf hch hop (b := x) (by simp [hpc, Pc.target])).2.1
      exact absurd hp (hS.core.prev_of_mem hx)
  | delFault x hpc hcfg hp =>
      exact absurd hp (hS.core.prev_of_mem (hS.core.mem_of_del hS.typed hf hpc))
  | callRcu x hpc | free x hpc =>
      rw [eq_of_getElem?_set hf hf']
      intro hnot
      have hun := (hS.recorded.doomed k f x hf (by simp [hpc, Pc.doomed])).1
      exact absurd (hsub ch ((h.doneIff k ch hch).mpr ⟨x, hun⟩)) hnot
  | copy x newB u id async hpc | init x v hpc | replace x newB u id async hpc | del x hpc | add x hpc =>
      rw [eq_of_getElem?_set hf hf']
      exact trivial

/-- The step in which call `k` makes its change to the object `b`. -/
theorem commit (h : Commuting c chs s xs ut done) (hS : Sound s xs ut)
    (hc : (c.map Entry.id).Nodup) (hchs : (chs.map Change.id).Nodup) (hch : chs[k]? = some ch)
    (hnot : ch ∉ done) (hb : b ∈ xs) (hid : (s.mem.book b).id = ch.id)
    (hap : c.any ch.applies = true) (hun : unlinked s'.hist = (k, b) :: unlinked s.hist)
    (hbook : s'.mem.book = s.mem.book)
    (hshows : xs'.map s.mem.book = ((replay c done).filterMap ch.effect).map Entry.toBook)
    (hxs : ∀ z' ∈ xs', ∃ z ∈ xs, (s.mem.book z).id = (s.mem.book z').id)
    (hnext : ∀ x, x = b ∨ (∃ t, ut x = some t) →
      s'.mem.links.next (.node x) = s.mem.links.next (.node x)) :
    Changed c chs s' xs' (Function.update ut b (some s.clock)) (done ++ [ch]) := by
  have hmem := List.mem_of_getElem? hch
  have hone : ∀ k₂ ch₂, chs[k₂]? = some ch₂ → (ch₂ = ch ↔ k₂ = k) := by
    intro k₂ ch₂ hch₂
    constructor
    · intro h
      subst h
      have hlt := (List.getElem?_eq_some_iff.mp hch₂).1
      exact (List.getElem?_inj hlt (List.Nodup.of_map _ hchs)).mp (hch₂.trans hch.symm)
    · intro h
      subst h
      exact Option.some.inj (hch₂.symm.trans hch)
  constructor
  case shows =>
    rw [hbook, replay_append, hshows]
  case doneNodup =>
    rw [List.map_append, List.nodup_append]
    refine ⟨h.doneNodup, List.nodup_singleton _, ?_⟩
    intro i hi j hj heq
    obtain ⟨d, hd, rfl⟩ := List.mem_map.mp hi
    rw [List.mem_singleton.mp hj] at heq
    exact h.done_ne hchs hmem hnot d hd heq
  case doneOf =>
    intro d hd
    rcases List.mem_append.mp hd with hd | hd
    · exact h.doneOf d hd
    · rw [List.mem_singleton.mp hd]
      exact hmem
  case doneIff =>
    intro k₂ ch₂ hch₂
    have hold := h.doneIff k₂ ch₂ hch₂
    rw [hun, List.mem_append, List.mem_singleton, hone k₂ ch₂ hch₂, hold]
    constructor
    · intro h
      rcases h with ⟨x, hx⟩ | rfl
      · exact ⟨x, List.mem_cons_of_mem _ hx⟩
      · exact ⟨b, List.mem_cons_self ..⟩
    · intro h
      rcases h with ⟨x, hx⟩
      rcases List.mem_cons.mp hx with heq | hx
      · exact .inr (Prod.mk.inj heq).1
      · exact .inl ⟨x, hx⟩
  case applied =>
    intro d hd
    rcases List.mem_append.mp hd with hd | hd
    · exact h.applied d hd
    · rw [List.mem_singleton.mp hd]
      exact hap
  case stale =>
    intro x t hx
    have hpub : x = b ∨ ∃ t, ut x = some t := by
      by_cases hxb : x = b
      · exact .inl hxb
      · exact .inr ⟨t, by rwa [Function.update_of_ne hxb] at hx⟩
    have hP : Published xs ut x := by
      rcases hpub with rfl | hgone
      · exact .inl hb
      · exact .inr hgone
    rw [hbook, hnext x hpub]
    refine ⟨h.known hP, (h.leads hc hS.core hP).mono ?_ fun _ _ => rfl, ?_⟩
    · intro z' hz'
      obtain ⟨z, hz, heq⟩ := hxs z' hz'
      exact ⟨z, hz, by rw [heq]⟩
    · rw [hun]
      rcases hpub with rfl | ⟨t', ht'⟩
      · exact ⟨k, ch, hch, List.mem_cons_self .., hid.symm⟩
      · obtain ⟨-, -, k', ch', hch', hin, hid'⟩ := h.stale x t' ht'
        exact ⟨k', ch', hch', List.mem_cons_of_mem _ hin, hid'⟩

theorem represents (h : Commuting c chs s xs ut done) (hS : Sound s xs ut) :
    Represents s.mem xs (replay c done) where
  ring := hS.core.ring
  live := by
    intro x hx
    refine ⟨(hS.core.linked x hx).1, fun hfreed => ?_⟩
    obtain ⟨t, ht, -⟩ := hS.core.freed x hfreed
    rw [(hS.core.linked x hx).2] at ht
    cases ht
  shows := h.shows

theorem relist (h : Commuting c chs s xs ut done) (hS : Sound s xs ut)
    (hc : (c.map Entry.id).Nodup) (hchs : (chs.map Change.id).Nodup)
    (hs : s.step cfg a = some s') (hr : Relists s a s' xs ut xs' ut') :
    ∃ done', (∀ d ∈ done, d ∈ done') ∧ Changed c chs s' xs' ut' done' := by
  have hnodup : ((replay c done).map Entry.id).Nodup := (replay_ids c done).nodup hc
  have hoff : ∀ {x t}, ut x = some t → Ptr.node x ∉ ring xs := by
    intro x t hx hm
    rw [(hS.core.linked x (mem_ring_node.mp hm)).2] at hx
    cases hx
  cases hr with
  | same hnext hentry hhist =>
      have hbooks : ∀ x, Published xs ut x → s'.mem.book x = s.mem.book x :=
        fun x hx => hS.core.book_step hs hx
      have hun : unlinked s'.hist = unlinked s.hist := by
        rcases hhist with hh | ⟨c, b, hh⟩ <;> simp [hh]
      refine ⟨done, fun _ hd => hd, ?_, h.doneNodup, h.doneOf, by rw [hun]; exact h.doneIff,
        h.applied, ?_⟩
      · rw [← h.shows]
        exact List.map_congr_left fun x hx => hbooks x (.inl hx)
      · intro x t hx
        obtain ⟨hid, hleads, hcall⟩ := h.stale x t hx
        rw [hbooks x (.inr ⟨t, hx⟩), hun, hnext x (.inr ⟨t, hx⟩)]
        refine ⟨hid, hleads.mono ?_ ?_, hcall⟩
        · exact fun z hz => ⟨z, hz, by rw [hbooks z (.inl hz)]⟩
        · intro y hy
          have hpub : Published xs ut y := by
            rcases (hS.core.gone x t hx).2.2.2 with hh | ⟨z, hz, hcase⟩
            · rw [hh] at hy
              cases hy
            · cases hz.symm.trans hy
              exact hcase.imp id fun ⟨r, hr, _⟩ => ⟨r, hr⟩
          simp only [hbooks y hpub]
  | added k alloc f b ha hf hpc hframes hlinks hbook hentry hhist =>
      obtain ⟨ch, -, hop⟩ := h.change hf
      have hsuits := (hS.typed f (List.mem_of_getElem? hf)).suits
      rw [hpc, hop] at hsuits
      cases ch <;> cases hsuits
  | replaced k alloc f b newB u id async ha hf hpc hop hb hframes hlinks hbook hentry hhist =>
      obtain ⟨ch, hch, hop'⟩ := h.change hf
      obtain ⟨hnot, -, hid⟩ := h.chosen_mem hS hchs hf hch hop' (b := b) (by simp [hpc, Pc.target])
      have hchecked := hS.checked k f hf
      have hpassed := hchecked.passed b u id async (by simp [hpc, Pc.chosen]) hop
      have hcopy := hchecked.copied b newB u id async (by simp [hpc, Pc.copied]) hop
      have hmem := List.mem_of_getElem? hch
      have hch' : ch.op = .updateBook u id async := hop'.symm.trans hop
      have hnew := (hS.core.frame k f hf).fresh newB (by simp [hpc, Pc.fresh])
      refine ⟨done ++ [ch], fun _ hd => List.mem_append_left _ hd,
        h.commit hS hc hchs hch hnot hb hid ?_ (by rw [hhist]; rfl) hbook ?_ ?_ ?_⟩
      · have href := h.refused hc hchs hmem hnot hb hid hch'
        rw [hpassed] at href
        simpa using href.symm
      · -- the entry at the place of the object is the one that changes
        obtain ⟨as, bs, rfl⟩ := List.append_of_mem hb
        obtain ⟨ca, e, cb, hrep, hca, he, hcb⟩ := (h.represents hS).split rfl
        rw [hrep] at hnodup ⊢
        obtain ⟨hne₁, hne₂⟩ := ids_ne_of_split hnodup
        have heid : e.id = ch.id := by
          rw [← hid, he]
          rfl
        rw [heid] at hne₁ hne₂
        rw [rename_split hS.core.ring.nodup, Change.filterMap_split hne₁ hne₂]
        have heff : ch.effect e = some { e with borrowed := u.lends } := by
          cases ch with
          | update u' id' async' =>
              cases hch'
              simp [Change.effect, heid]
          | delete id' async' => cases hch'
        simp [hca, hcb, hcopy, he, heff, ← u.toBook_flag]
      · intro z' hz'
        rcases (mem_rename hb).mp hz' with rfl | ⟨hz', -⟩
        · exact ⟨b, hb, by rw [hcopy]⟩
        · exact ⟨z', hz', rfl⟩
      · intro x h
        rcases h with rfl | ⟨t, hx⟩
        · rw [hlinks]
          exact (hS.core.ring.replace_self hb hnew.2.1).1
        · rw [hlinks]
          refine (hS.core.ring.replace_off hb hnew.2.1 (hoff hx) fun heq => ?_).1
          rw [Ptr.node.inj heq, hnew.2.2] at hx
          cases hx
  | deleted k alloc f b ha hf hpc hb hframes hlinks hbook hentry hhist =>
      obtain ⟨ch, hch, hop'⟩ := h.change hf
      obtain ⟨hnot, -, hid⟩ := h.chosen_mem hS hchs hf hch hop' (b := b) (by simp [hpc, Pc.target])
      have hmem := List.mem_of_getElem? hch
      obtain ⟨id, async, rfl⟩ : ∃ id async, ch = .delete id async := by
        have hsuits := (hS.typed f (List.mem_of_getElem? hf)).suits
        rw [hpc, hop'] at hsuits
        cases ch with
        | update u id async => cases hsuits
        | delete id async => exact ⟨id, async, rfl⟩
      refine ⟨done ++ [.delete id async], fun _ hd => List.mem_append_left _ hd,
        h.commit hS hc hchs hch hnot hb hid ?_ (by rw [hhist]; rfl) hbook ?_ ?_ ?_⟩
      · obtain ⟨e, he, -, heid⟩ := h.entry_of hchs hmem hnot hb hid
        exact List.any_eq_true.mpr ⟨e, he, by simpa [Change.applies, Change.id] using heid⟩
      · obtain ⟨as, bs, rfl⟩ := List.append_of_mem hb
        obtain ⟨ca, e, cb, hrep, hca, he, hcb⟩ := (h.represents hS).split rfl
        rw [hrep] at hnodup ⊢
        obtain ⟨hne₁, hne₂⟩ := ids_ne_of_split hnodup
        have heid : e.id = id := by
          have hbid : (s.mem.book b).id = id := hid
          rw [← hbid, he]
          rfl
        rw [heid] at hne₁ hne₂
        rw [filter_split hS.core.ring.nodup, Change.filterMap_split hne₁ hne₂]
        simp [hca, hcb, Change.effect, heid, Change.id]
      · exact fun z' hz' => ⟨z', (List.mem_filter.mp hz').1, rfl⟩
      · intro x h
        rcases h with rfl | ⟨t, hx⟩
        · rw [hlinks]
          exact (hS.core.ring.unlink_self hb).1
        · rw [hlinks]
          exact (hS.core.ring.unlink_off hb (hoff hx)).1

end Commuting

end KernelTrg.Books
