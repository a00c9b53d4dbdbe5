import KernelTrg.Books.Independent

/-!
# Every interleaving ends as the calls in turn

A call's search moves on to later places only, so the steps left to it go down at
every step; some call can always step until all have returned; and then the list
shows what the calls leave one after the other, in any order.
-/

namespace KernelTrg.Books

open LinkRing Runs

variable {cfg : Config} {s s' t : Sys} {a : Action} {xs xs' : List Addr}
  {ut ut' : Addr → Option Nat} {k : Nat} {f f' : Frame} {c : Catalogue} {chs done : List Change}
  {ch : Change}

/-- A call takes a step in which its allocation succeeds, or a callback runs. -/
def Action.Continues : Action → Prop
  | .run _ alloc => alloc = true
  | .callback _ => True
  | .call _ => False

instance (a : Action) : Decidable a.Continues :=
  match a with
  | .run _ alloc => inferInstanceAs (Decidable (alloc = true))
  | .callback _ => isTrue trivial
  | .call _ => isFalse id

/-! ## One step -/

theorem SearchOk.mono {m m' : Mem} {done' : List Change} {pc : Pc} (h : SearchOk c m done ch pc)
    (hb : ∀ x ∈ pc.reads, m'.book x = m.book x) (hsub : ∀ d ∈ done, d ∈ done') :
    SearchOk c m' done' ch pc := by
  cases pc with
  | walk p =>
      cases p with
      | node x =>
          change place c (m'.book x).id ≤ place c ch.id
          rw [hb x (by simp [Pc.reads])]
          exact h
      | _ => exact h
  | next x =>
      change place c (m'.book x).id < place c ch.id
      rw [hb x (by simp [Pc.reads])]
      exact h
  | done r => exact fun hnot => h fun hin => hnot (hsub ch hin)
  | _ => exact h

theorem Trans.ops (ht : Trans cfg s k f true t) (hf : s.frames[k]? = some f) (hfits : f.Fits) :
    t.frames.map Frame.op = s.frames.map Frame.op := by
  obtain ⟨f', hframes, hop, -⟩ := ht.fits hfits
  obtain ⟨hlt, hget⟩ := List.getElem?_eq_some_iff.mp hf
  have hk : k < (s.frames.map Frame.op).length := by simpa using hlt
  have hself : (s.frames.map Frame.op)[k] = f'.op := by
    rw [List.getElem_map, hget, hop]
  rw [hframes, List.map_set, ← hself, List.set_getElem_self]

theorem Commuting.step (h : Commuting c chs s xs ut done) (hS : Sound s xs ut)
    (hc : (c.map Entry.id).Nodup) (hchs : (chs.map Change.id).Nodup) (ha : a.Continues)
    (hs : s.step cfg a = some s') :
    ∃ xs' ut' done', Sound s' xs' ut' ∧ Commuting c chs s' xs' ut' done' := by
  obtain ⟨xs', ut', hS', hr⟩ := hS.step (h.replacesLinked hS hchs) hs
  obtain ⟨done', hsub, hchanged⟩ := h.relist hS hc hchs hs hr
  refine ⟨xs', ut', done', hS', hchanged, ?_, ?_⟩
  · rcases step_cases hs with ⟨op, rfl, -⟩ | ⟨k, al, f, t, rfl, hf, ht, rfl⟩ | ⟨i, b, r, rfl, -, -, rfl⟩
    · exact ha.elim
    · cases ha
      exact (ht.ops hf (hS.typed f (List.mem_of_getElem? hf))).trans h.calls
    · exact h.calls
  · intro j g ch hg hch
    rcases step_cases hs with ⟨op, rfl, -⟩ | ⟨k, al, f, t, rfl, hf, ht, rfl⟩ | ⟨i, b, r, rfl, -, -, rfl⟩
    · exact ha.elim
    · cases ha
      obtain ⟨f', hframes, -⟩ := ht.fits (hS.typed f (List.mem_of_getElem? hf))
      by_cases hj : j = k
      · subst hj
        obtain ⟨ch', hch', hop⟩ := h.change hf
        cases hch.symm.trans hch'
        exact h.search_own (t := t) hS hc hchs hf hch hop ht hg hsub
      · have hk : s.frames[j]? = some g := by
          simpa [Sys.tick, hframes, List.getElem?_set_ne (Ne.symm hj)] using hg
        exact (h.search j g ch hk hch).mono
          (fun x hx => hS.core.book_step hs ((hS.core.frame j g hk).reads x hx).published) hsub
    · exact (h.search j g ch hg hch).mono (fun _ _ => rfl) hsub

/-! ## The number of steps -/

def left (c : Catalogue) (m : Mem) : Pc → Nat
  | .start => 2 * c.length + 16
  | .first => 2 * c.length + 15
  | .walk (.node x) => 2 * (c.length - place c (m.book x).id) + 14
  | .next x => 2 * (c.length - place c (m.book x).id) + 13
  | .walk _ => 12
  | .test _ => 11
  | .alloc _ => 10
  | .copy .. => 9
  | .lock .. => 8
  | .replace .. | .del _ => 7
  | .unlock _ => 6
  | .leave _ => 5
  | .reclaim _ | .init _ => 4
  | .sync .. | .addLock _ => 3
  | .free _ | .addLink _ | .found _ | .print _ => 2
  | .exit | .addUnlock | .late _ => 1
  | .done _ | .oops => 0

/-- A bound on the steps of all calls and the callbacks that are still to run. -/
def Sys.left (c : Catalogue) (s : Sys) : Nat :=
  (s.frames.map fun f => Books.left c s.mem f.pc).sum + s.callbacks.length

theorem left_congr {m m' : Mem} {pc : Pc} (hb : ∀ x ∈ pc.reads, m'.book x = m.book x) :
    left c m' pc = left c m pc := by
  cases pc with
  | walk p =>
      cases p with
      | node x => simp only [left, hb x (by simp [Pc.reads])]
      | _ => rfl
  | next x => simp only [left, hb x (by simp [Pc.reads])]
  | _ => rfl

/-- The stepping call has fewer steps left, a callback it leaves behind included. -/
theorem Commuting.left_own (h : Commuting c chs s xs ut done) (hS : Sound s xs ut)
    (hc : (c.map Entry.id).Nodup) (hf : s.frames[k]? = some f) (ht : Trans cfg s k f true t)
    (hf' : t.frames[k]? = some f') :
    left c t.mem f'.pc + t.callbacks.length < left c s.mem f.pc + s.callbacks.length := by
  have hreads := (hS.core.frame k f hf).reads
  cases ht with
  | quiet g hl ha =>
      rw [eq_of_getElem?_set hf hf']
      refine Nat.add_lt_add_right ?_ _
      change left c s.mem g.pc < left c s.mem f.pc
      cases hl with
      | first hpc =>
          rw [hpc]
          cases hp : s.mem.links.next .head <;> simp only [left] <;> omega
      | hit x hpc hid =>
          rw [hpc]
          cases f.op <;> simp only [Sys.hit, left] <;> omega
      | wild p hpc hp =>
          rw [hpc]
          rcases hp with rfl | rfl <;> simp [left]
      | next x hpc =>
          rw [hpc]
          have hsafe := hreads x (by simp [hpc, Pc.reads])
          rcases h.leads hc hS.core hsafe.published with ⟨hp, -⟩ | ⟨y, hp, hxy, -⟩
          · simp only [hp, left]
            omega
          · have hy : Published xs ut y := by
              rcases hS.core.safe_next hsafe with hh | ⟨z, hz, hz'⟩
              · rw [hp] at hh
                cases hh
              · cases hp.symm.trans hz
                exact hz'.published
            have hle := place_le (h.known hy)
            have hxy' : place c (s.mem.book x).id < place c (s.mem.book y).id := hxy
            simp only [hp, left]
            omega
      | noMemory hpc | enter hpc | finish hpc | miss x hpc | refuse x u id async hpc
      | accept x u id async hpc | giveUp x hpc | leave x hpc | sync x hpc | grace x r hpc
      | found x hpc | late x hpc | print x hpc | exit hpc =>
          rw [hpc]
          simp only [left]
          omega
  | acquire pc hfree hpc =>
      rw [eq_of_getElem?_set hf hf']
      rcases hpc with ⟨hpc, -, rfl⟩ | ⟨x, newB, hpc, rfl⟩ | ⟨x, hpc, rfl⟩ <;> simp [left, hpc, Sys.goto]
  | release pc hpc =>
      rw [eq_of_getElem?_set hf hf']
      rcases hpc with ⟨x, hpc, rfl⟩ | ⟨hpc, rfl⟩ | ⟨hpc, -, rfl⟩
      · cases hdel : f.op.deletes <;> simp [left, hpc, Sys.goto]
      · simp [left, hpc, Sys.goto]
      · simp [left, hpc, Sys.goto]
  | alloc pc ha hpc =>
      rw [eq_of_getElem?_set hf hf']
      rcases hpc with ⟨id, name, author, -, hpc, rfl⟩ | ⟨x, hpc, rfl⟩ <;> simp [left, hpc, Sys.goto]
  | callRcu x hpc =>
      rw [eq_of_getElem?_set hf hf']
      simp only [left, hpc, Sys.goto, List.length_append, List.length_singleton]
      omega
  | copy x newB u id async hpc | init x v hpc | replaceFault x newB hpc | delFault x hpc
  | replace x newB u id async hpc | del x hpc | add x hpc | free x hpc =>
      rw [eq_of_getElem?_set hf hf']
      simp [left, hpc, Sys.goto]

theorem Commuting.left_step (h : Commuting c chs s xs ut done) (hS : Sound s xs ut)
    (hc : (c.map Entry.id).Nodup) (ha : a.Continues) (hs : s.step cfg a = some s') :
    s'.left c < s.left c := by
  rcases step_cases hs with ⟨op, rfl, -⟩ | ⟨k, al, f, t, rfl, hf, ht, rfl⟩ | ⟨i, b, r, rfl, hi, -, rfl⟩
  · exact ha.elim
  · cases ha
    obtain ⟨f', hframes, -⟩ := ht.fits (hS.typed f (List.mem_of_getElem? hf))
    have hlt := (List.getElem?_eq_some_iff.mp hf).1
    have hf' : t.frames[k]? = some f' := by rw [hframes, List.getElem?_set_self hlt]
    have hown := h.left_own hS hc hf ht hf'
    have hsum := sum_map_set (y := f') (fun g => Books.left c s.mem g.pc)
      (fun g => Books.left c t.mem g.pc) hf fun j g hj hg => left_congr fun x hx =>
        hS.core.book_published (t := t) hf ht ((hS.core.frame j g hg).reads x hx).published
    change (t.frames.map fun g => Books.left c t.mem g.pc).sum + t.callbacks.length < _
    rw [hframes, Sys.left]
    omega
  · have hlt := (List.getElem?_eq_some_iff.mp hi).1
    change (s.frames.map fun g => Books.left c s.mem g.pc).sum + (s.callbacks.eraseIdx i).length <
      (s.frames.map fun g => Books.left c s.mem g.pc).sum + s.callbacks.length
    rw [List.length_eraseIdx_of_lt hlt]
    omega

/-! ## Whole interleavings -/

/-- The calls have returned what they return one after the other, in whatever order, and have
left the catalogue they leave then, on a list whose links agree in both directions. -/
structure InTurn (m : Mem) (chs : List Change) (s : Sys) : Prop where
  linked : ∀ p, p = .head ∨ (∃ b, p = .node b ∧ s.mem.Reachable b) →
    s.mem.links.prev (s.mem.links.next p) = p
  same : ∃ ret : Change → Option Int,
    s.frames.map (fun f => (f.op, f.pc)) = chs.map (fun ch => (ch.op, Pc.done (ret ch))) ∧
    ∀ ps : List Change, ps.Perm chs → ∃ s₁, runCalls ⟨m, []⟩ (ps.map Change.call) = some (s₁, ps.map ret) ∧
      s₁.mem.catalogue = s.mem.catalogue

theorem Commuting.boot {m : Mem} (hm : Represents m xs c) (chs : List Change) :
    Commuting c chs (Sys.boot m (chs.map Change.op)) xs (fun _ => none) [] := by
  refine ⟨⟨hm.shows, List.nodup_nil, fun _ h => (by cases h), ?_, fun _ h => (by cases h),
    fun _ _ h => (by cases h)⟩, ?_, ?_⟩
  · intro k ch _
    constructor
    · intro h
      cases h
    · intro hall
      rcases hall with ⟨b, h⟩
      cases h
  · simp [Sys.boot, Function.comp_def, Frame.new]
  · intro k f ch hf _
    obtain ⟨op, -, rfl⟩ := List.mem_map.mp (List.mem_of_getElem? hf)
    exact trivial

theorem Commuting.returned (h : Commuting c chs s xs ut done) (hS : Sound s xs ut)
    (hf : s.frames[k]? = some f) (hch : chs[k]? = some ch) (hop : f.op = ch.op) {r : Option Int}
    (hpc : f.pc = .done r) :
    r = ch.ret c ∧ (ch ∉ done → c.any ch.applies = false) := by
  have hsearch := h.search k f ch hf hch
  rw [hpc] at hsearch
  refine ⟨?_, fun hnot => (hsearch hnot).1⟩
  by_cases hin : ch ∈ done
  · obtain ⟨b, hb⟩ := (h.doneIff k ch hch).mp hin
    obtain ⟨g, hg, hcase⟩ := hS.recorded.unlinkedBy k b hb
    cases hf.symm.trans hg
    rcases hcase with hd | ⟨hd, -⟩
    · rw [hpc] at hd
      cases hd
    · rw [hpc, hop] at hd
      rw [Change.ret, if_pos (h.applied ch hin)]
      exact Pc.done.inj hd
  · obtain ⟨hap, hr⟩ := hsearch hin
    rw [Change.ret, hap]
    exact hr

theorem Commuting.inTurn {m : Mem} (h : Commuting c chs s xs ut done) (hS : Sound s xs ut)
    (hc : (c.map Entry.id).Nodup) (hchs : (chs.map Change.id).Nodup) {xs₀ : List Addr}
    (hm : Represents m xs₀ c) (hfreed : m.freed = [])
    (hdone : ∀ f ∈ s.frames, ∃ r, f.pc = .done r) : InTurn m chs s := by
  have hlen : s.frames.length = chs.length := by
    simpa using congrArg List.length h.calls
  have hidle : ∀ ch ∈ chs, ch ∉ done → ∀ e ∈ c, ch.applies e = false := by
    intro ch hch hnot e he
    obtain ⟨k, hk⟩ := List.getElem?_of_mem hch
    have hlt : k < s.frames.length := hlen ▸ (List.getElem?_eq_some_iff.mp hk).1
    obtain ⟨f, hf⟩ : ∃ f, s.frames[k]? = some f := ⟨_, List.getElem?_eq_getElem hlt⟩
    obtain ⟨ch', hch', hop⟩ := h.change hf
    cases hk.symm.trans hch'
    obtain ⟨r, hr⟩ := hdone f (List.mem_of_getElem? hf)
    have hany := (h.returned hS hf hk hop hr).2 hnot
    simpa using List.any_eq_false.mp hany e he
  have hcat : s.mem.catalogue = (replay c chs).map Entry.toBook := by
    rw [(h.represents hS).catalogue, replay_congr hchs h.doneNodup h.doneOf hidle]
  refine ⟨?_, fun ch => ch.ret c, ?_, ?_⟩
  · intro p hp
    apply hS.core.ring.prev_next
    rcases hp with rfl | ⟨b, rfl, n, hn⟩
    · exact mem_ring_head
    · exact hn ▸ hS.core.ring.iterate_mem n
  · apply List.ext_getElem?
    intro k
    rw [List.getElem?_map, List.getElem?_map]
    cases hf : s.frames[k]? with
    | none =>
        have hnone : chs[k]? = none := by
          rw [List.getElem?_eq_none_iff] at hf ⊢
          omega
        rw [hnone]
        rfl
    | some f =>
        obtain ⟨ch, hch, hop⟩ := h.change hf
        obtain ⟨r, hr⟩ := hdone f (List.mem_of_getElem? hf)
        rw [hch, Option.map_some, Option.map_some, hr, hop, (h.returned hS hf hch hop hr).1]
  · intro ps hps
    have hpsids : (ps.map Change.id).Nodup := (hps.map Change.id).nodup_iff.mpr hchs
    have hrefines : Refines ⟨m, []⟩ c :=
      ⟨xs₀, hm, by simp [hfreed], fun b hb => by cases hb⟩
    obtain ⟨s₁, hrun, xs₁, hs₁⟩ := runCalls_refines hrefines (ps.map Change.call)
    rw [applyCalls_eq_replay hc hpsids] at hrun hs₁
    refine ⟨s₁, hrun, ?_⟩
    rw [hs₁.shown.catalogue, hcat, replay_congr hchs hpsids (fun ch hch => hps.mem_iff.mp hch)]
    exact fun ch hch hnot => absurd (hps.mem_iff.mpr hch) hnot

/-- Every interleaving of updates of different books comes to an end, can go on until all calls
have returned, and ends as the calls do one after the other. -/
theorem independent_updates_commute {m : Mem} (hm : Represents m xs c) (hfreed : m.freed = [])
    (hc : (c.map Entry.id).Nodup) (chs : List Change) (hchs : (chs.map Change.id).Nodup)
    {as : List Action} (has : ∀ a ∈ as, a.Continues)
    (hrun : exec (Sys.step cfg) (Sys.boot m (chs.map Change.op)) as = some s) :
    as.length ≤ chs.length * (2 * c.length + 16) ∧
    ((∃ f ∈ s.frames, ∀ r, f.pc ≠ .done r) → ∃ k s', s.step cfg (.run k true) = some s') ∧
    ((∀ f ∈ s.frames, ∃ r, f.pc = .done r) → InTurn m chs s) := by
  let I : Sys → Prop := fun s =>
    Holder s ∧ ∃ xs ut done, Sound s xs ut ∧ Commuting c chs s xs ut done
  have hboot : I (Sys.boot m (chs.map Change.op)) := by
    have hbooted : Booted m xs := ⟨hm.ring, fun b hb => (hm.live b hb).1, hfreed⟩
    exact ⟨.boot _ _, xs, _, [], hbooted.sound _, .boot hm chs⟩
  have hstep : ∀ s a t, I s → a.Continues → s.step cfg a = some t → I t ∧ t.left c < s.left c := by
    intro s a t hall
    rcases hall with ⟨hholder, xs, ut, done, hS, h⟩
    intro ha hs
    exact ⟨⟨hholder.step hS.typed hs, h.step hS hc hchs ha hs⟩, h.left_step hS hc ha hs⟩
  have hguard : Along (Sys.step cfg) (fun _ a => a.Continues) (Sys.boot m (chs.map Change.op)) as :=
    .of_mem has _
  have hlen := exec_length_le (Sys.left c) hstep hboot hguard hrun
  obtain ⟨hholder, xs', ut, done, hS, h⟩ :=
    exec_invariant (I := I) (fun s a t hI ha hs => (hstep s a t hI ha hs).1) hboot hguard hrun
  refine ⟨?_, ?_, h.inTurn hS hc hchs hm hfreed⟩
  · have hstart : (Sys.boot m (chs.map Change.op)).left c = chs.length * (2 * c.length + 16) := by
      simp [Sys.left, Sys.boot, Function.comp_def, Frame.new, left]
    omega
  · intro h
    rcases h with ⟨f, hf, hdone⟩
    refine some_call_steps hS.typed hholder ?_ hf hdone
    intro g hg hpc
    obtain ⟨k, hk⟩ := List.getElem?_of_mem hg
    obtain ⟨ch, hch, -⟩ := h.change hk
    have hsearch := h.search k g ch hk hch
    rw [hpc] at hsearch
    exact hsearch

def twoBooks : Mem := (addBook ⟨oneBook, []⟩ 1 [] [] true).mem

theorem twoBooks_represents : Represents twoBooks [1, 0]
    [⟨1, strncpy nameSize [], strncpy nameSize [], false⟩,
      ⟨0, strncpy nameSize [], strncpy nameSize [], false⟩] where
  ring := ((AgreeOff.kzalloc oneBook).isRing oneBook_booted.ring (by decide)).insert (by decide)
  live := by decide
  shows := rfl

/-- A deleter waits in `synchronize_rcu` for a borrower that has gone past the deleted book. -/
theorem neighbours_commute : ∃ s,
    exec (Sys.step ⟨false⟩) (Sys.boot twoBooks [.borrowBook 0 true, .deleteBook 1 false])
      (List.replicate 8 (.run 0 true) ++ List.replicate 6 (.run 1 true) ++
        List.replicate 5 (.run 0 true) ++ List.replicate 2 (.run 1 true) ++ [.callback 0]) =
      some s ∧
    s.frames.map Frame.pc = [.done (some 0), .done none] ∧
    InTurn twoBooks [.update .borrow 0 true, .delete 1 false] s := by
  obtain ⟨s, hs, hpc⟩ := Option.map_eq_some_iff.mp (show (exec (Sys.step ⟨false⟩)
      (Sys.boot twoBooks [.borrowBook 0 true, .deleteBook 1 false])
      (List.replicate 8 (.run 0 true) ++ List.replicate 6 (.run 1 true) ++
        List.replicate 5 (.run 0 true) ++ List.replicate 2 (.run 1 true) ++ [.callback 0])).map
      (fun s => s.frames.map Frame.pc) = some [.done (some 0), .done none] by decide)
  have hall := independent_updates_commute twoBooks_represents rfl (by decide)
    [.update .borrow 0 true, .delete 1 false] (by decide) (by decide) hs
  refine ⟨s, hs, hpc, hall.2.2 fun f hf => ?_⟩
  have hmem := List.mem_map_of_mem (f := Frame.pc) hf
  rw [hpc] at hmem
  rcases List.mem_cons.mp hmem with h | h
  · exact ⟨_, h⟩
  · exact ⟨_, List.mem_singleton.mp h⟩

end KernelTrg.Books
