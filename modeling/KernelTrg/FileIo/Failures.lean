import KernelTrg.FileIo.Delivery

/-!
# Failed calls that nobody hears of

`readwrite` returns -1 when a call fails, `copyfile` drops it, and `main` exits with 0.
The copy is whole exactly where no call fails before the last byte of the source is
written, and only there does the outcome say so.
-/

namespace KernelTrg.FileIo

/-- No call fails before everything is written: `left` bytes are still to be read, and of
those already read `pending` are still to be written. -/
def unbroken : Nat → Nat → List Answer → Bool
  | _, _, [] => true
  | left, pending, .eintr :: answers => unbroken left pending answers
  | left, pending, .error :: _ => left = 0 ∧ pending = 0
  | left, 0, .done k :: answers =>
      let size := min blkSize (max k 1)
      unbroken (left - size) (min size left) answers
  | left, pending + 1, .done k :: answers =>
      unbroken left (pending + 1 - min k (pending + 1)) answers

variable {fs fs' fs₀ : Fs} {f f' : OpenFile} {i j : Ino} {p m left pending total : Nat}
  {c c' mid : Copying} {n last : Int32} {blocks : List Nat} {answer : Answer}
  {answers rest : List Answer} {src dst prog : Path} {r : RegResult} {buf : List UInt8}

/-! ## The calls -/

@[simp] theorem unbroken_zero (answers : List Answer) : unbroken 0 0 answers = true := by
  induction answers with
  | nil => rfl
  | cons a as ih => cases a <;> simp [unbroken, ih]

theorem unbroken_restart (h : restart answers = some (answer, rest)) :
    unbroken left pending answers = unbroken left pending (answer :: rest) := by
  induction answers with
  | nil => cases h
  | cons a as ih =>
      cases a with
      | eintr => exact ih h
      | done k =>
          cases h
          rfl
      | error =>
          cases h
          rfl

/-- A buffer is written whole only where nothing fails before, and given up only where
something does. -/
theorem rWriteLoop_unbroken {r : Option Nat} (left : Nat)
    (h : rWriteLoop fs f buf total answers = some (r, fs', f', rest)) :
    unbroken left buf.length answers = (r.isSome && unbroken left 0 rest) := by
  induction answers generalizing fs f buf total with
  | nil =>
      cases buf with
      | nil =>
          cases h
          rfl
      | cons b bs => cases h
  | cons a as ih =>
      cases buf with
      | nil =>
          cases h
          rfl
      | cons b bs =>
          cases a with
          | done k =>
              have hnext := ih h
              rw [List.length_drop, List.length_take] at hnext
              exact hnext
          | eintr => exact ih h
          | error =>
              cases h
              simp [unbroken]

/-! ## The rounds -/

/-- A round keeps the account of what is left, or shows why it did not copy. -/
theorem CopiedTo.round_unbroken (h : CopiedTo fs₀ i j p m c) (hsep : j = i → p = 0)
    (hr : readwrite c = some (n, c')) :
    (∃ k, n = Int32.ofNat k ∧ 0 < k ∧ k ≤ blkSize ∧ CopiedTo fs₀ i j p (m + k) c' ∧
        unbroken ((fs₀.data i).length - m) 0 c.answers =
          unbroken ((fs₀.data i).length - (m + k)) 0 c'.answers) ∨
      (¬0 < n ∧ (c'.tofd.pos = p + (fs₀.data i).length ↔
        unbroken ((fs₀.data i).length - m) 0 c.answers = true)) := by
  have hm := h.le
  cases readwrite_cases hr with
  | readFailed answer =>
      right
      rw [unbroken_restart answer]
      simp only [h.tofd, unbroken, and_true, decide_eq_true_eq]
      exact ⟨by decide, by omega⟩
  | @atEnd k rest answer empty =>
      have hlen := h.length_nextBlock hsep k
      simp only [empty, List.length_nil, blkSize] at hlen
      have hend : (fs₀.data i).length - m = 0 := by omega
      right
      rw [hend]
      simp only [h.tofd, unbroken_zero, iff_true]
      exact ⟨by decide, by omega⟩
  | @written k total rest rest' fs tofd answer nonempty write =>
      have hlen := h.length_nextBlock hsep k
      left
      refine ⟨_, rfl, List.length_pos_of_ne_nil nonempty, by omega, h.written hsep write, ?_⟩
      have hwritten := rWriteLoop_unbroken
        ((fs₀.data i).length - (m + (nextBlock c k).length)) write
      rw [Option.isSome_some, Bool.true_and] at hwritten
      rw [unbroken_restart answer, unbroken, ← hlen, ← hwritten]
      congr 1
      omega
  | @writeFailed k rest rest' fs tofd answer nonempty write =>
      have hlen := h.length_nextBlock hsep k
      have hfailed := rWriteLoop_unbroken
        ((fs₀.data i).length - (m + (nextBlock c k).length)) write
      rw [Option.isSome_none, Bool.false_and] at hfailed
      right
      obtain ⟨w, -, -, rfl, -, ⟨hsome, -⟩ | ⟨-, hlt, -⟩⟩ := rWriteLoop_spec write
      · cases hsome
      · have hleft : (fs₀.data i).length - m - min blkSize (max k 1) =
            (fs₀.data i).length - (m + (nextBlock c k).length) := by omega
        rw [unbroken_restart answer, unbroken, ← hlen, hleft, hfailed]
        simp only [h.tofd, Bool.false_eq_true, iff_false]
        exact ⟨by decide, by omega⟩

theorem CopiedTo.whole_iff (h : CopiedTo fs₀ i j p m c) (hsep : j = i → p = 0)
    (hrounds : Rounds c blocks mid) (hlast : readwrite mid = some (last, c'))
    (hend : ¬0 < last) :
    c'.tofd.pos = p + (fs₀.data i).length ↔
      unbroken ((fs₀.data i).length - m) 0 c.answers = true := by
  induction hrounds generalizing m with
  | refl c =>
      rcases h.round_unbroken hsep hlast with ⟨k, rfl, hpos, hle, -⟩ | ⟨-, hwhole⟩
      · exact absurd (pos_ofNat hpos (by simp only [blkSize] at hle; omega)) hend
      · exact hwhole
  | @step c next mid k ks round pos lt rest ih =>
      rcases h.round_unbroken hsep round with ⟨k', hk', -, hle, hnext, hkeep⟩ | ⟨hstop, -⟩
      · rw [hkeep]
        exact ih hnext hlast
      · exact absurd (pos_ofNat pos lt) hstop

/-! ## The programs -/

/-- `main` comes to its copy and writes the whole source to the destination, from its start
on. -/
def WholeWritten (fs : Fs) (src dst : Path) (answers : List Answer) : Prop :=
  ∃ c n c', Started fs src dst answers c ∧ copyfile c = some (n, c') ∧
    c'.tofd.pos = (c.fs.data c.fromfd.ino).length ∧
    c'.fs = c.fs.write c.tofd.ino 0 (c.fs.data c.fromfd.ino)

/-- The whole source is written exactly where no call fails before its last byte is. -/
theorem Started.wholeWritten_iff (h : Started fs src dst answers c)
    (hcopy : copyfile c = some (n, c')) :
    WholeWritten fs src dst answers ↔
      unbroken (c.fs.data c.fromfd.ino).length 0 c.answers = true := by
  obtain ⟨i, j, -, -, -, hc⟩ := h.spec
  obtain ⟨blocks, mid, last, hrounds, hlast, hend, -⟩ := copyfile_rounds hcopy
  have hsource : c.fs.data c.fromfd.ino = (fs.create dst).data i := by
    rw [hc.fromfd, hc.source (fun _ => rfl)]
  have hwhole := hc.whole_iff (fun _ => rfl) hrounds hlast hend
  rw [Nat.zero_add, Nat.sub_zero] at hwhole
  rw [hsource, ← hwhole]
  constructor
  · intro h
    rcases h with ⟨c₁, n₁, c₁', hstarted, hcopy₁, hpos, -⟩
    cases h.unique hstarted
    rw [hcopy] at hcopy₁
    cases hcopy₁
    rw [hpos, hsource]
  · intro hpos
    refine ⟨c, n, c', h, hcopy, by rw [hpos, hsource], ?_⟩
    obtain ⟨hmid, -⟩ := hrounds.copiedTo (fun _ => rfl) hc
    have hfs := hc.fs
    simp only [List.take_zero, Fs.write_nil] at hfs
    have hlen : ∃ len, c'.fs = (fs.create dst).write j 0 (((fs.create dst).data i).take len) ∧
        c'.tofd = ⟨j, 0 + len⟩ := by
      rcases hmid.last_round (fun _ => rfl) hlast hend with ⟨-, hc'⟩ | ⟨-, part, -, -, hfs', htofd⟩
      · exact ⟨_, hc'.fs, hc'.tofd⟩
      · exact ⟨_, hfs', htofd⟩
    obtain ⟨len, hfs', htofd⟩ := hlen
    rw [htofd, Nat.zero_add] at hpos
    have hall : ((fs.create dst).data i).take len = (fs.create dst).data i :=
      List.take_of_length_le hpos.ge
    rw [hfs', hall, hsource, hfs, hc.tofd]

/-- `reg_fileio` ends with success only after a whole copy, and with an outcome that no whole
copy has after any other, exactly where no call fails before the last byte is written. -/
theorem regFileio_reports_iff (h : regFileio fs [prog, src, dst] answers = some r) :
    ((r.status = 0 → WholeWritten fs src dst answers) ∧
      (¬WholeWritten fs src dst answers → ∀ n, (r.printed, r.status) ≠ (some n, 0))) ↔
      ∀ c, Started fs src dst answers c →
        unbroken (c.fs.data c.fromfd.ino).length 0 c.answers = true := by
  rcases regFileio_cases h with ⟨rfl, hnone, -⟩ | ⟨c, n, c', hstarted, hcopy, rfl⟩
  · constructor
    · intro _ c hc
      exact absurd hc (hnone c)
    · intro _
      exact ⟨by simp, by simp⟩
  · have hwhole := hstarted.wholeWritten_iff hcopy
    constructor
    · intro h
      rcases h with ⟨hsuccess, -⟩
      intro c₁ hc₁
      cases hstarted.unique hc₁
      exact hwhole.mp (hsuccess rfl)
    · intro hunbroken
      have hall := hwhole.mpr (hunbroken c hstarted)
      exact ⟨fun _ => hall, fun hnot => absurd hall hnot⟩

/-- An interrupted and a short write of a file of 3 bytes; the error comes after its end. -/
theorem regFileio_reports_whole : ∃ r,
    regFileio (twoFiles [1, 2, 3] []) [[], [97], [98]]
      [.done 0, .done 0, .done 9, .eintr, .done 2, .done 1, .error] = some r ∧
    ((r.status = 0 → WholeWritten (twoFiles [1, 2, 3] []) [97] [98]
        [.done 0, .done 0, .done 9, .eintr, .done 2, .done 1, .error]) ∧
      (¬WholeWritten (twoFiles [1, 2, 3] []) [97] [98]
        [.done 0, .done 0, .done 9, .eintr, .done 2, .done 1, .error] →
          ∀ n, (r.printed, r.status) ≠ (some n, 0))) := by
  obtain ⟨r, hr, -⟩ := Option.map_eq_some_iff.mp (show (regFileio (twoFiles [1, 2, 3] [])
      [[], [97], [98]] [.done 0, .done 0, .done 9, .eintr, .done 2, .done 1, .error]).map
      RegResult.status = some 0 by decide)
  refine ⟨r, hr, (regFileio_reports_iff hr).mpr fun c hc => ?_⟩
  have hstart : Started (twoFiles [1, 2, 3] []) [97] [98]
      [.done 0, .done 0, .done 9, .eintr, .done 2, .done 1, .error]
      ⟨twoFiles [1, 2, 3] [], ⟨0, 0⟩, ⟨1, 0⟩, [.done 9, .eintr, .done 2, .done 1, .error]⟩ :=
    ⟨_, rfl, rfl⟩
  rw [hc.unique hstart]
  decide

/-- After a failed write `reg_fileio` ends as after the whole copy of a shorter file. -/
theorem regFileio_hides_failure : ∃ r whole,
    regFileio (twoFiles [1, 2, 3] []) [[], [97], [98]]
      [.done 0, .done 0, .done 2, .done 2, .done 1, .error] = some r ∧
    r.status = 0 ∧ r.fs.contents [98] = some [1, 2] ∧
    ¬WholeWritten (twoFiles [1, 2, 3] []) [97] [98]
      [.done 0, .done 0, .done 2, .done 2, .done 1, .error] ∧
    regFileio (twoFiles [1, 2] []) [[], [97], [98]]
      [.done 0, .done 0, .done 2, .done 2, .done 1] = some whole ∧
    (r.printed, r.status) = (whole.printed, whole.status) := by
  obtain ⟨r, hr, hend⟩ := Option.map_eq_some_iff.mp (show (regFileio (twoFiles [1, 2, 3] [])
      [[], [97], [98]] [.done 0, .done 0, .done 2, .done 2, .done 1, .error]).map
      (fun r => (r.printed, r.status, r.fs.contents [98])) =
        some (some 2, 0, some [1, 2]) by decide)
  obtain ⟨whole, hwhole, hsame⟩ := Option.map_eq_some_iff.mp (show (regFileio (twoFiles [1, 2] [])
      [[], [97], [98]] [.done 0, .done 0, .done 2, .done 2, .done 1]).map
      (fun r => (r.printed, r.status)) = some (some 2, 0) by decide)
  obtain ⟨hprinted, hstatus, hcontents⟩ : r.printed = some 2 ∧ r.status = 0 ∧
      r.fs.contents [98] = some [1, 2] := by simpa using hend
  refine ⟨r, whole, hr, hstatus, hcontents, ?_, hwhole, by rw [hprinted, hstatus, hsame]⟩
  have hstart : Started (twoFiles [1, 2, 3] []) [97] [98]
      [.done 0, .done 0, .done 2, .done 2, .done 1, .error]
      ⟨twoFiles [1, 2, 3] [], ⟨0, 0⟩, ⟨1, 0⟩, [.done 2, .done 2, .done 1, .error]⟩ :=
    ⟨_, rfl, rfl⟩
  rcases regFileio_cases hr with ⟨rfl, -⟩ | ⟨c, n, c', hc, hcopy, -⟩
  · cases hstatus
  · rw [hc.wholeWritten_iff hcopy, hc.unique hstart]
    decide

end KernelTrg.FileIo
