import KernelTrg.ThreadShow.Lines

/-!
# What the listing says of the threads

`showthrds` looks at the `mm` of the group leader, whichever thread it shows. Its lines are
right on every list that processes can come to, unless a leader has exited and is still on
the list: its group is then shown as kernel threads, without a count.
-/

namespace KernelTrg.ThreadShow

open Runs Bytes

def tasks (groups : List Group) : List (Group × Task) :=
  groups.flatMap fun g => g.threads.map fun t => (g, t)

def heading : List UInt8 :=
  ascii "----------------------------------------------------------------------------\n" ++
    ascii "    TGID   PID               Thread Name        # Threads\n" ++
    ascii "----------------------------------------------------------------------------\n"

/-- The loop: both arrays are cleared after each thread. -/
def showTasks : Buffers → List (Group × Task) → Option (List (List UInt8))
  | _, [] => some []
  | b, x :: xs =>
      (showthrd b x.1 x.2).bind fun line => (showTasks .cleared xs).map fun lines => line :: lines

/-- What `showthrds` prints, call by call; `b` is what its arrays hold on the stack. -/
def showthrds (b : Buffers) (groups : List Group) : Option (List (List UInt8)) :=
  (showTasks b (tasks groups)).map fun lines => heading :: lines

/-- One line for each thread on the list, with its name in brackets just for a kernel thread;
and for a user process of several live threads one line with the number of its threads. -/
structure Shows (groups : List Group) (out : List (List UInt8)) : Prop where
  lines : ∃ lines : List Line, out = heading :: lines.map Line.text ∧
    (lines.map fun l => (l.tgid, l.pid, l.name, l.bracketed)) =
      ((tasks groups).map fun x => (x.1.tgid, x.2.pid, x.2.comm.text, x.1.kernel)) ∧
    ∀ g ∈ groups, g.kernel = false → 1 < g.live →
      (lines.filter (·.tgid = g.tgid)).filterMap (·.count) = [g.threads.length]

variable {groups : List Group} {g : Group} {t : Task} {events : List Event}

theorem mem_tasks : (g, t) ∈ tasks groups ↔ g ∈ groups ∧ t ∈ g.threads := by
  simp [tasks, List.mem_flatMap]

theorem Group.Ok.length_le (h : g.Ok) : g.threads.length ≤ pidMax := by
  have hsub : g.pids ⊆ List.range pidMax := by
    intro p hp
    obtain ⟨t, ht, rfl⟩ := Group.mem_pids.mp hp
    exact List.mem_range.mpr (h.bound t ht)
  simpa [Group.pids] using (h.nodup.subperm hsub).length_le

theorem showTasks_eq (b : Buffers) {xs : List (Group × Task)}
    (h : ∀ b, ∀ x ∈ xs, showthrd b x.1 x.2 = some (lineOf x.1 x.2).text) :
    showTasks b xs = some (xs.map fun x => (lineOf x.1 x.2).text) := by
  induction xs generalizing b with
  | nil => rfl
  | cons x xs ih =>
      have hrest := ih .cleared fun b y hy => h b y (by simp [hy])
      unfold showTasks
      rw [h b x (by simp), hrest]
      rfl

theorem showthrds_eq (b : Buffers) (h : Valid groups) :
    showthrds b groups =
      some (heading :: (tasks groups).map fun x => (lineOf x.1 x.2).text) := by
  have hall : ∀ b, ∀ x ∈ tasks groups, showthrd b x.1 x.2 = some (lineOf x.1 x.2).text := by
    intro b ⟨g, t⟩ hx
    obtain ⟨hg, ht⟩ := mem_tasks.mp hx
    have hok := h.ok g hg
    exact showthrd_eq b (hok.bound _ (List.mem_cons_self ..)) (hok.bound t ht)
      (hok.count.le.trans hok.length_le)
  unfold showthrds
  rw [showTasks_eq b hall]
  rfl

/-- The brackets that are printed are those of the kernel threads only if every leader of a
user process has its `mm`. -/
theorem brackets_of_texts {lines : List Line} {xs : List (Group × Task)}
    (htext : lines.map Line.text = xs.map fun x => (lineOf x.1 x.2).text)
    (hkeys : (lines.map fun l => (l.tgid, l.pid, l.name, l.bracketed)) =
      xs.map fun x => (x.1.tgid, x.2.pid, x.2.comm.text, x.1.kernel)) :
    ∀ x ∈ xs, (!x.1.leader.mm) = x.1.kernel := by
  induction xs generalizing lines with
  | nil => simp
  | cons x xs ih =>
      cases lines with
      | nil => simp at htext
      | cons l lines =>
          simp only [List.map_cons, List.cons.injEq, Prod.mk.injEq] at htext hkeys
          obtain ⟨⟨htgid, hpid, -, hbracketed⟩, hkeys⟩ := hkeys
          have hsame := Line.bracketed_of_text l (lineOf x.1 x.2) htgid hpid htext.1
          intro y hy
          rcases List.mem_cons.mp hy with rfl | hy
          · exact hsame.symm.trans hbracketed
          · exact ih htext.2 hkeys y hy

theorem filter_tgid (h : Valid groups) (hg : g ∈ groups) :
    ((tasks groups).map fun x => lineOf x.1 x.2).filter (·.tgid = g.tgid) =
      g.threads.map (lineOf g) := by
  obtain ⟨as, bs, rfl⟩ := List.append_of_mem hg
  have hmem : ∀ g' : Group, g'.tgid ∈ g'.pids := fun g' => List.mem_cons_self ..
  have hapart := h.apart
  rw [List.pairwise_append, List.pairwise_cons] at hapart
  obtain ⟨-, ⟨hbs, -⟩, has⟩ := hapart
  have hother : ∀ cs : List Group, (∀ c ∈ cs, c.tgid ≠ g.tgid) →
      ((tasks cs).map fun x => lineOf x.1 x.2).filter (·.tgid = g.tgid) = [] := by
    intro cs hcs
    rw [List.filter_eq_nil_iff]
    intro l hl
    obtain ⟨⟨c, t⟩, hx, rfl⟩ := List.mem_map.mp hl
    simpa [lineOf] using hcs c (mem_tasks.mp hx).1
  have hsplit : tasks (as ++ g :: bs) =
      tasks as ++ (g.threads.map fun t => (g, t)) ++ tasks bs := by
    simp [tasks]
  have hown : ((g.threads.map fun t => (g, t)).map fun x => lineOf x.1 x.2).filter
      (·.tgid = g.tgid) = g.threads.map (lineOf g) := by
    rw [List.map_map, List.filter_eq_self.mpr]
    · rfl
    · intro l hl
      obtain ⟨t, -, rfl⟩ := List.mem_map.mp hl
      simp [lineOf]
  rw [hsplit, List.map_append, List.map_append, List.filter_append, List.filter_append, hown,
    hother as, hother bs, List.nil_append, List.append_nil]
  · intro c hc heq
    exact hbs c hc (hmem g) (heq ▸ hmem c)
  · intro c hc heq
    exact has c hc g (by simp) (hmem c) (heq ▸ hmem g)

/-- A leader with an `mm` shows the count of its group, and no other thread does. -/
theorem Group.Ok.counts (h : g.Ok) (hmm : g.leader.mm = true) (hmany : 1 < g.threads.length) :
    (g.threads.map (lineOf g)).filterMap (·.count) = [g.threads.length] := by
  have hleader : (lineOf g g.leader).count = some g.threads.length := by
    simp [lineOf, hmm, Group.tgid, h.count, hmany]
  have hothers : (g.others.map (lineOf g)).filterMap (·.count) = [] := by
    rw [List.filterMap_eq_nil_iff]
    intro l hl
    obtain ⟨t, ht, rfl⟩ := List.mem_map.mp hl
    have hne : g.tgid ≠ t.pid := by
      intro heq
      have hnodup := h.nodup
      rw [Group.pids, Group.threads, List.map_cons, List.nodup_cons] at hnodup
      exact hnodup.1 (List.mem_map.mpr ⟨t, ht, heq.symm⟩)
    simp [lineOf, hne]
  rw [Group.threads, List.map_cons, List.filterMap_cons_some hleader, hothers]
  rfl

/-- On every list that processes can come to the listing is right exactly where no leader of
a user process has exited. -/
theorem showthrds_shows_iff (b : Buffers) (h : exec step boot events = some groups) :
    (∃ out, showthrds b groups = some out ∧ Shows groups out) ↔
      ∀ g ∈ groups, g.kernel = false → g.leader.exited = false := by
  have hvalid := valid_of_exec h
  have hleader : ∀ g ∈ groups, g.leader.mm = (!g.kernel && !g.leader.exited) :=
    fun g hg => (hvalid.ok g hg).mm _ (List.mem_cons_self ..)
  rw [showthrds_eq b hvalid]
  constructor
  · intro h
    rcases h with ⟨out, hout, lines, rfl, hkeys, -⟩
    intro g hg hkernel
    have htext := (List.cons.inj (Option.some_inj.mp hout)).2.symm
    have hbrackets := brackets_of_texts htext hkeys (g, g.leader)
      (mem_tasks.mpr ⟨hg, List.mem_cons_self ..⟩)
    simp only [hleader g hg, hkernel] at hbrackets
    simpa using hbrackets
  · intro halive
    refine ⟨_, rfl, (tasks groups).map fun x => lineOf x.1 x.2, by simp, ?_, ?_⟩
    · rw [List.map_map]
      apply List.map_congr_left
      intro x hx
      have hg := (mem_tasks (g := x.1) (t := x.2)).mp hx
      have hbracketed : (!x.1.leader.mm) = x.1.kernel := by
        rw [hleader x.1 hg.1]
        cases hkernel : x.1.kernel with
        | true => rfl
        | false => simp [halive x.1 hg.1 hkernel]
      simp [lineOf, hbracketed]
    · intro g hg hkernel hlive
      have hmm : g.leader.mm = true := by simp [hleader g hg, hkernel, halive g hg hkernel]
      have hmany : 1 < g.threads.length := lt_of_lt_of_le hlive List.countP_le_length
      rw [filter_tgid hvalid hg]
      exact (hvalid.ok g hg).counts hmm hmany

def bashComm : Comm := ⟨[98, 97, 115, 104], by decide, by decide⟩

/-- A process with three threads, one of which has exited, beside a kernel thread. -/
theorem showthrds_shows_alive : ∃ groups, exec step boot
      [.kthread 2 bashComm, .fork 1 100 bashComm, .clone 100 101 bashComm,
        .clone 101 102 bashComm, .exit 101] = some groups ∧
    ∃ out, showthrds .cleared groups = some out ∧ Shows groups out := by
  obtain ⟨groups, h, halive⟩ := Option.map_eq_some_iff.mp (show (exec step boot
      [.kthread 2 bashComm, .fork 1 100 bashComm, .clone 100 101 bashComm,
        .clone 101 102 bashComm, .exit 101]).map
      (fun groups => groups.all fun g => g.kernel || !g.leader.exited) = some true by decide)
  refine ⟨groups, h, (showthrds_shows_iff .cleared h).mpr fun g hg hkernel => ?_⟩
  simpa [hkernel] using List.all_eq_true.mp halive g hg

/-- The leader of three threads exits first: its siblings run on and are shown in brackets,
and no line counts them. -/
theorem showthrds_hides_group : ∃ groups, exec step boot
      [.fork 1 100 bashComm, .clone 100 101 bashComm, .clone 101 102 bashComm, .exit 100] =
        some groups ∧
    (∃ g ∈ groups, g.kernel = false ∧ g.live = 2 ∧
      (g.threads.map (lineOf g)).map (fun l => (l.bracketed, l.count)) =
        [(true, none), (true, none), (true, none)]) ∧
    ∀ b, ¬∃ out, showthrds b groups = some out ∧ Shows groups out := by
  obtain ⟨groups, h, hend⟩ := Option.map_eq_some_iff.mp (show (exec step boot
      [.fork 1 100 bashComm, .clone 100 101 bashComm, .clone 101 102 bashComm, .exit 100]).map
      (fun groups => decide (∃ g ∈ groups, g.kernel = false ∧ g.live = 2 ∧
        (g.threads.map (lineOf g)).map (fun l => (l.bracketed, l.count)) =
          [(true, none), (true, none), (true, none)])) = some true by decide)
  obtain ⟨g, hg, hkernel, hlive, hlines⟩ := of_decide_eq_true hend
  refine ⟨groups, h, ⟨g, hg, hkernel, hlive, hlines⟩, ?_⟩
  intro b h
  rcases h with ⟨out, hout, lines, rfl, hkeys, -⟩
  rw [showthrds_eq b (valid_of_exec h)] at hout
  have htext := (List.cons.inj (Option.some_inj.mp hout)).2.symm
  have hbrackets := brackets_of_texts htext hkeys (g, g.leader)
    (mem_tasks.mpr ⟨hg, List.mem_cons_self ..⟩)
  rw [Group.threads, List.map_cons, List.map_cons] at hlines
  have hfirst := (List.cons.inj hlines).1
  simp only [lineOf, Prod.mk.injEq] at hfirst
  rw [hfirst.1, hkernel] at hbrackets
  cases hbrackets

end KernelTrg.ThreadShow
