import KernelTrg.FileIo.Rounds

/-!
# What the copy programs leave in the destination

The source over the front of the old destination: both programs agree on it. It is
the content of the source where the old destination was not longer.
-/

namespace KernelTrg.FileIo

open Bytes

/-! ## Opening -/

namespace Fs

variable {fs : Fs} {p path : Path} {i j : Ino}

theorem create_of_some (h : fs.lookup path = some j) : fs.create path = fs := by
  simp [create, h]

theorem lookup_create_of_some (h : fs.lookup p = some i) :
    (fs.create path).lookup p = some i := by
  unfold create
  split
  next => exact h
  next hnone =>
      have hne : p ≠ path := by
        intro h
        subst h
        simp [h] at hnone
      simpa [Function.update_of_ne hne] using h

theorem data_create_of_lt (h : i < fs.next) : (fs.create path).data i = fs.data i := by
  unfold create
  split
  · rfl
  · exact Function.update_of_ne (Nat.ne_of_lt h) _ _

theorem lookup_create (fs : Fs) (path : Path) :
    ∃ j, (fs.create path).lookup path = some j ∧
      (fs.create path).data j = (fs.contents path).getD [] := by
  cases h : fs.lookup path with
  | some j =>
      rw [create_of_some h]
      exact ⟨j, h, by simp [contents, h]⟩
  | none => exact ⟨fs.next, by simp [create, h], by simp [create, h, contents]⟩

/-- An existing file is opened under a name that is not its own only if it has both. -/
theorem lookup_create_eq_iff (hi : fs.lookup p = some i) :
    (fs.create path).lookup path = some i ↔ fs.lookup path = some i := by
  refine ⟨fun h => ?_, lookup_create_of_some⟩
  cases hpath : fs.lookup path with
  | some j => rwa [create_of_some hpath, hpath] at h
  | none =>
      have hnext : fs.next = i := by simpa [create, hpath] using h
      exact absurd hnext (Nat.ne_of_gt (fs.lookup_lt hi))

theorem contents_eq_some (h : fs.lookup path = some i) : fs.contents path = some (fs.data i) := by
  simp [contents, h]

end Fs

variable {fs fs' : Fs} {path prog src dst : Path} {i j : Ino} {answers rest : List Answer}
  {fd : Option OpenFile} {c c' : Copying} {r : RegResult} {k : MmapAnswers} {w : MmapResult}

theorem rOpen2_spec (h : rOpen2 fs path answers = some (fd, rest)) :
    rest <:+ answers ∧
      (fd = none ∧ (fs.lookup path = none ∨ .error ∈ answers) ∨
        ∃ i, fs.lookup path = some i ∧ fd = some ⟨i, 0⟩) := by
  obtain ⟨⟨answer, rest'⟩, ha, hopen⟩ := Option.map_eq_some_iff.mp h
  obtain ⟨hmem, hsuffix, -, hne⟩ := restart_suffix ha
  cases answer with
  | done n =>
      cases hopen
      refine ⟨hsuffix, ?_⟩
      cases hlookup : fs.lookup path with
      | none => exact .inl ⟨by simp [sysOpen, hlookup], .inl rfl⟩
      | some i => exact .inr ⟨i, rfl, by simp [sysOpen, hlookup]⟩
  | eintr => exact absurd rfl hne
  | error =>
      cases hopen
      exact ⟨hsuffix, .inl ⟨rfl, .inr hmem⟩⟩

theorem rOpen3_spec (h : rOpen3 fs path answers = some (fd, fs', rest)) :
    rest <:+ answers ∧
      (fd = none ∧ fs' = fs ∧ .error ∈ answers ∨
        ∃ j, (fs.create path).lookup path = some j ∧ fs' = fs.create path ∧ fd = some ⟨j, 0⟩) := by
  obtain ⟨⟨answer, rest'⟩, ha, hopen⟩ := Option.map_eq_some_iff.mp h
  obtain ⟨hmem, hsuffix, -, hne⟩ := restart_suffix ha
  cases answer with
  | done n =>
      cases hopen
      obtain ⟨j, hj, -⟩ := fs.lookup_create path
      exact ⟨hsuffix, .inr ⟨j, hj, rfl, by simp [hj]⟩⟩
  | eintr => exact absurd rfl hne
  | error =>
      cases hopen
      exact ⟨hsuffix, .inl ⟨rfl, rfl, hmem⟩⟩

/-! ## The program with `read` and `write` -/

/-- `c` is the state in which `main` calls `copyfile`, both files open. -/
def Started (fs : Fs) (src dst : Path) (answers : List Answer) (c : Copying) : Prop :=
  ∃ rest, rOpen2 fs src answers = some (some c.fromfd, rest) ∧
    rOpen3 fs dst rest = some (some c.tofd, c.fs, c.answers)

theorem Started.spec (h : Started fs src dst answers c) :
    ∃ i j, fs.lookup src = some i ∧ (fs.create dst).lookup dst = some j ∧
      c.answers <:+ answers ∧ CopiedTo (fs.create dst) i j 0 0 c := by
  obtain ⟨rest, hfrom, hto⟩ := h
  obtain ⟨hsuffix, ⟨hnone, -⟩ | ⟨i, hi, hfd⟩⟩ := rOpen2_spec hfrom
  · cases hnone
  · obtain ⟨hsuffix', ⟨hnone, -⟩ | ⟨j, hj, hfs, hfd'⟩⟩ := rOpen3_spec hto
    · cases hnone
    · refine ⟨i, j, hi, hj, hsuffix'.trans hsuffix, ?_, ?_, ?_, Nat.zero_le _⟩
      · simpa using hfs
      · exact Option.some_inj.mp hfd
      · simpa using Option.some_inj.mp hfd'

theorem Started.unique (h : Started fs src dst answers c) (h' : Started fs src dst answers c') :
    c = c' := by
  obtain ⟨rest, hfrom, hto⟩ := h
  obtain ⟨rest', hfrom', hto'⟩ := h'
  have hfirst := Prod.mk.inj (Option.some_inj.mp (hfrom.symm.trans hfrom'))
  rw [← hfirst.2] at hto'
  have hsecond := Prod.mk.inj (Option.some_inj.mp (hto.symm.trans hto'))
  have hrest := Prod.mk.inj hsecond.2
  cases c
  cases c'
  simp only [Copying.mk.injEq]
  exact ⟨hrest.1, Option.some_inj.mp hfirst.1, Option.some_inj.mp hsecond.1, hrest.2⟩

theorem regFileio_cases (h : regFileio fs [prog, src, dst] answers = some r) :
    (r = ⟨fs, none, 1⟩ ∧ (∀ c, ¬Started fs src dst answers c) ∧
        (fs.lookup src = none ∨ .error ∈ answers)) ∨
      ∃ c n c', Started fs src dst answers c ∧ copyfile c = some (n, c') ∧
        r = ⟨c'.fs, some n, 0⟩ := by
  obtain ⟨⟨fdFrom, rest⟩, hfrom, hopened⟩ := Option.bind_eq_some_iff.mp h
  obtain ⟨hsuffix, hfirst⟩ := rOpen2_spec hfrom
  cases fdFrom with
  | none =>
      cases hopened
      left
      refine ⟨rfl, fun c hc => ?_, ?_⟩
      · obtain ⟨rest', hfrom', -⟩ := hc
        rw [hfrom] at hfrom'
        cases hfrom'
      · obtain ⟨-, hfail⟩ | ⟨i, -, hfd⟩ := hfirst
        · exact hfail
        · cases hfd
  | some fromfd =>
      obtain ⟨⟨fdTo, fs', rest'⟩, hto, hboth⟩ := Option.bind_eq_some_iff.mp hopened
      obtain ⟨-, hsecond⟩ := rOpen3_spec hto
      cases fdTo with
      | none =>
          cases hboth
          left
          obtain ⟨-, rfl, herr⟩ | ⟨j, -, -, hfd⟩ := hsecond
          · refine ⟨rfl, fun c hc => ?_, .inr (hsuffix.mem herr)⟩
            obtain ⟨rest'', hfrom', hto'⟩ := hc
            rw [hfrom] at hfrom'
            cases hfrom'
            rw [hto] at hto'
            cases hto'
          · cases hfd
      | some tofd =>
          obtain ⟨⟨n, c'⟩, hcopy, hend⟩ := Option.map_eq_some_iff.mp hboth
          exact .inr ⟨⟨fs', fromfd, tofd, rest'⟩, n, c', ⟨rest, hfrom, hto⟩, hcopy, hend.symm⟩

/-- `reg_fileio` gives up before it copies, or copies a front of the source. -/
theorem regFileio_spec (h : regFileio fs [prog, src, dst] answers = some r) :
    (r.fs = fs ∧ r.status = 1 ∧ (fs.lookup src = none ∨ .error ∈ answers)) ∨
      ∃ i j m p, fs.lookup src = some i ∧ (fs.create dst).lookup dst = some j ∧
        r.printed = some (Int32.ofNat m) ∧ r.status = 0 ∧
        Stopped (fs.create dst) i j m p answers r.fs := by
  obtain ⟨rfl, -, hfail⟩ | ⟨c, n, c', hstarted, hcopy, rfl⟩ := regFileio_cases h
  · exact .inl ⟨rfl, rfl, hfail⟩
  · obtain ⟨i, j, hi, hj, hsuffix, hc⟩ := hstarted.spec
    obtain ⟨copied, p, rfl, hstop⟩ := hc.run hcopy
    rw [Nat.zero_add] at hstop
    refine .inr ⟨i, j, copied, p, hi, hj, by simp, rfl, hstop.fs, hstop.partly, hstop.le, ?_⟩
    exact fun hok => hstop.whole fun herr => hok (hsuffix.mem herr)

/-- Without errors the whole source is stored over the front of the destination. -/
theorem regFileio_complete (hsrc : fs.lookup src = some i) (hok : .error ∉ answers)
    (h : regFileio fs [prog, src, dst] answers = some r) :
    r.fs.contents dst =
      some (fs.data i ++ ((fs.contents dst).getD []).drop (fs.data i).length) := by
  obtain ⟨-, -, hnone | herr⟩ | ⟨i', j, m, p, hi, hj, -, -, hstop⟩ := regFileio_spec h
  · rw [hsrc] at hnone
    cases hnone
  · exact absurd herr hok
  · cases hsrc.symm.trans hi
    have hsource : (fs.create dst).data i = fs.data i := Fs.data_create_of_lt (fs.lookup_lt hi)
    have hlen := hstop.whole hok
    have hle := hstop.le
    obtain ⟨j', hj', hold⟩ := fs.lookup_create dst
    cases hj.symm.trans hj'
    rw [hsource] at hlen hle
    rw [Fs.contents_eq_some (i := j) (by rw [hstop.fs, Fs.lookup_write, hj]), hstop.fs,
      Fs.data_write_start, hold, hsource, List.take_of_length_le (by omega)]

/-- `reg_fileio` copies, error-free, exactly where the old destination is not longer than
the source. -/
theorem regFileio_copies_iff (dst : Path) (hsrc : fs.lookup src = some i) (hok : .error ∉ answers)
    (h : regFileio fs [prog, src, dst] answers = some r) :
    r.fs.contents dst = fs.contents src ↔
      ((fs.contents dst).getD []).length ≤ (fs.data i).length := by
  rw [regFileio_complete hsrc hok h, Fs.contents_eq_some hsrc, Option.some_inj,
    List.append_right_eq_self, List.drop_eq_nil_iff]

def twoFiles (content old : List UInt8) : Fs where
  lookup path := if path = [97] then some 0 else if path = [98] then some 1 else none
  data ino := if ino = 0 then content else if ino = 1 then old else []
  next := 2
  lookup_lt := by
    intro path ino h
    split at h
    · cases h
      decide
    · split at h
      · cases h
        decide
      · cases h

/-- The copy of a longer file over a shorter one, with an interrupted write and a short one. -/
theorem regFileio_copies_short : ∃ r,
    regFileio (twoFiles [1, 2, 3] [9]) [[], [97], [98]]
      [.done 0, .done 0, .done 2, .eintr, .done 1, .done 1, .done 9, .done 9, .done 9] = some r ∧
    r.fs.contents [98] = some [1, 2, 3] := by
  obtain ⟨r, hr, -⟩ := Option.map_eq_some_iff.mp (show (regFileio (twoFiles [1, 2, 3] [9])
      [[], [97], [98]] [.done 0, .done 0, .done 2, .eintr, .done 1, .done 1, .done 9, .done 9,
        .done 9]).map RegResult.printed = some (some 3) by decide)
  have hcopies := (regFileio_copies_iff [98] (i := 0) (by decide)
    (by decide) hr).mpr (by decide)
  exact ⟨r, hr, hcopies.trans (by decide)⟩

/-- Nothing cuts the rest of a longer destination off. -/
theorem regFileio_leaves_rest : ∃ r,
    regFileio (twoFiles [1] [2, 3]) [[], [97], [98]]
      [.done 0, .done 0, .done 1, .done 1, .done 0] = some r ∧ r.status = 0 ∧
    r.fs.contents [98] = some [1, 3] ∧
    r.fs.contents [98] ≠ (twoFiles [1] [2, 3]).contents [97] := by
  obtain ⟨r, hr, hend⟩ := Option.map_eq_some_iff.mp (show (regFileio (twoFiles [1] [2, 3])
      [[], [97], [98]] [.done 0, .done 0, .done 1, .done 1, .done 0]).map
      (fun r => (r.status, r.fs.contents [98])) = some (0, some [1, 3]) by decide)
  obtain ⟨hstatus, hcontents⟩ := Prod.mk.inj hend
  exact ⟨r, hr, hstatus, hcontents, by rw [hcontents]; decide⟩

/-! ## The program with mappings -/

/-- Every call of `mmap_fileio` succeeds, though an open may be interrupted before. -/
structure MmapAnswers.Succeed (k : MmapAnswers) : Prop where
  openFrom : .error ∉ k.openFrom
  openTo : .error ∉ k.openTo
  stat : ∃ n, k.stat = .done n
  write : ∃ n, k.write = .done (n + 1)
  mmapFrom : ∃ n, k.mmapFrom = .done n
  mmapTo : ∃ n, k.mmapTo = .done n

/-- `mmap_fileio` gives up before it looks at the files, or copies between two open ones. -/
theorem mmapFileio_spec (h : mmapFileio fs [prog, src, dst] k = some w) :
    (w = ⟨fs, .exit 1⟩ ∧ (fs.lookup src = none ∨ .error ∈ k.openFrom ∨ .error ∈ k.openTo)) ∨
      ∃ i j, fs.lookup src = some i ∧ (fs.create dst).lookup dst = some j ∧
        w = mmapCopy (fs.create dst) src ⟨i, 0⟩ ⟨j, 0⟩ k := by
  obtain ⟨⟨fdFrom, rest⟩, hfrom, hopened⟩ := Option.bind_eq_some_iff.mp h
  obtain ⟨-, ⟨rfl, hnone⟩ | ⟨i, hi, rfl⟩⟩ := rOpen2_spec hfrom
  · cases hopened
    exact .inl ⟨rfl, hnone.imp_right .inl⟩
  · obtain ⟨⟨fdTo, fs', rest'⟩, hto, hboth⟩ := Option.map_eq_some_iff.mp hopened
    obtain ⟨-, ⟨rfl, rfl, herr⟩ | ⟨j, hj, rfl, rfl⟩⟩ := rOpen3_spec hto
    · cases hboth
      exact .inl ⟨rfl, .inr (.inr herr)⟩
    · exact .inr ⟨i, j, hi, hj, hboth.symm⟩

theorem le_mappedLen (len : Nat) : len ≤ mappedLen len := by
  simp only [mappedLen, pageSize]
  omega

/-- When every call succeeds, the mappings copy the source over the front of a different
file. -/
theorem mmapCopy_contents (hk : k.Succeed) (hij : i ≠ j) (hi : fs.lookup src = some i)
    (hj : fs.lookup dst = some j) :
    (mmapCopy fs src ⟨i, 0⟩ ⟨j, 0⟩ k).fs.contents dst =
      some (fs.data i ++ (fs.data j).drop (fs.data i).length) := by
  obtain ⟨s, hs⟩ := hk.stat
  obtain ⟨n, hn⟩ := hk.write
  obtain ⟨a, ha⟩ := hk.mmapFrom
  obtain ⟨b, hb⟩ := hk.mmapTo
  have hstat : sysStat fs src k.stat = some (fs.data i).length := by
    simp [hs, sysStat, Fs.contents_eq_some hi]
  cases hlen : (fs.data i).length with
  | zero =>
      have hnil : fs.data i = [] := List.length_eq_zero_iff.mp hlen
      simp [mmapCopy, hstat, hnil, Fs.contents_eq_some hj]
  | succ len =>
      have hgrown : (fs.write j len [0]).data j = store 0 (fs.data j) len [0] :=
        Fs.data_write (by simp)
      have hsize : len + 1 ≤ ((fs.write j len [0]).data j).length := by
        rw [hgrown, length_store]
        exact Nat.le_max_right _ _
      have hreach := hsize.trans (le_mappedLen _)
      have hsource : ((fs.write j len [0]).data i).take (len + 1) = fs.data i := by
        rw [Fs.data_write_ne hij, List.take_of_length_le hlen.le]
      have hresult : (mmapCopy fs src ⟨i, 0⟩ ⟨j, 0⟩ k).fs =
          (fs.write j len [0]).write j 0 (fs.data i) := by
        simp only [mmapCopy, hstat, hlen, lseek, hn, ha, hb, sysWrite, memcpyMapped,
          List.take_succ_cons, List.take_nil, hreach, if_true, hsource]
        rw [List.take_of_length_le (hlen.le.trans hsize)]
      have hdrop := drop_store 0 (fs.data j) len [0]
      simp only [List.length_singleton] at hdrop
      rw [hresult, Fs.contents_eq_some (i := j) (by simp [hj]), Fs.data_write_start, hgrown, hlen,
        hdrop]

/-- Both programs leave the same content in the destination. -/
theorem programs_agree {prog' : Path} (hsrc : fs.lookup src = some i)
    (hdst : fs.lookup dst ≠ some i) (hok : .error ∉ answers) (hk : k.Succeed)
    (hr : regFileio fs [prog, src, dst] answers = some r)
    (hw : mmapFileio fs [prog', src, dst] k = some w) :
    ∃ content, r.fs.contents dst = some content ∧ w.fs.contents dst = some content := by
  refine ⟨_, regFileio_complete hsrc hok hr, ?_⟩
  obtain ⟨-, hnone | herr | herr⟩ | ⟨i', j, hi, hj, rfl⟩ := mmapFileio_spec hw
  · rw [hsrc] at hnone
    cases hnone
  · exact absurd herr hk.openFrom
  · exact absurd herr hk.openTo
  · cases hsrc.symm.trans hi
    obtain ⟨j', hj', hold⟩ := fs.lookup_create dst
    cases hj.symm.trans hj'
    have hij : i ≠ j := by
      intro h
      subst h
      exact hdst ((Fs.lookup_create_eq_iff hsrc).mp hj)
    rw [mmapCopy_contents hk hij (Fs.lookup_create_of_some hsrc) hj, hold,
      Fs.data_create_of_lt (fs.lookup_lt hsrc)]

def promptAnswers : MmapAnswers := ⟨[.done 0], [.done 0], .done 0, .done 1, .done 0, .done 0, 0⟩

theorem promptAnswers_succeed : promptAnswers.Succeed :=
  ⟨by decide, by decide, ⟨0, rfl⟩, ⟨0, rfl⟩, ⟨0, rfl⟩, ⟨0, rfl⟩⟩

/-- Both programs on a destination that is longer than the source. -/
theorem programs_agree_longer : ∃ r w,
    regFileio (twoFiles [1] [2, 3]) [[], [97], [98]]
      [.done 0, .done 0, .done 1, .done 1, .done 0] = some r ∧
    mmapFileio (twoFiles [1] [2, 3]) [[], [97], [98]] promptAnswers = some w ∧
    ∃ content, r.fs.contents [98] = some content ∧ w.fs.contents [98] = some content := by
  obtain ⟨r, hr, -⟩ := Option.map_eq_some_iff.mp (show (regFileio (twoFiles [1] [2, 3])
      [[], [97], [98]] [.done 0, .done 0, .done 1, .done 1, .done 0]).map RegResult.status =
      some 0 by decide)
  obtain ⟨w, hw, -⟩ := Option.map_eq_some_iff.mp (show (mmapFileio (twoFiles [1] [2, 3])
      [[], [97], [98]] promptAnswers).map MmapResult.ending = some .paused by decide)
  exact ⟨r, w, hr, hw, programs_agree (i := 0) (by decide) (by decide) (by decide)
    promptAnswers_succeed hr hw⟩

end KernelTrg.FileIo
