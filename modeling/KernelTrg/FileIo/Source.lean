import KernelTrg.FileIo.Outcomes

/-!
# What the copy programs leave of the source

Copying a file over itself block by block changes nothing. The NUL that `mmap_fileio`
stores to set the length of the destination stays where the two files are one: the copy
that should overwrite it reads it back.
-/

namespace KernelTrg.FileIo

open Bytes

variable {fs fs' : Fs} {prog src dst : Path} {i j : Ino} {answers rest rest' : List Answer}
  {r : RegResult} {k : MmapAnswers} {fromfd tofd : OpenFile}

/-- `mmap_fileio` gets as far as its `write` and the NUL is stored. -/
def MmapAnswers.StoresNul (k : MmapAnswers) : Prop :=
  (∃ n, k.stat = .done n) ∧ ∃ n, k.write = .done (n + 1)

/-! ## One file under both names -/

theorem store_last {content : List UInt8} {len : Nat} (h : content.length = len + 1) :
    store 0 content len [0] = content.dropLast ++ [0] := by
  have hgap : len - content.length = 0 := by omega
  have hrest : content.drop (len + [(0 : UInt8)].length) = [] :=
    List.drop_eq_nil_iff.mpr (by simp [h])
  unfold store
  rw [hgap, hrest, List.dropLast_eq_take, h]
  simp

theorem append_nul_eq_iff {content : List UInt8} (h : content ≠ []) :
    content.dropLast ++ [0] = content ↔ content.getLast? = some 0 := by
  rw [List.getLast?_eq_some_getLast h, Option.some_inj]
  constructor
  · intro heq
    have hlast := List.append_cancel_left ((List.dropLast_append_getLast h).trans heq.symm)
    exact (List.singleton_inj.mp hlast)
  · intro hlast
    rw [← hlast, List.dropLast_append_getLast]

theorem memcpyMapped_fs (fs : Fs) (fromfd tofd : OpenFile) (len copied : Nat) :
    ∃ n, (memcpyMapped fs fromfd tofd len copied).fs =
      fs.write tofd.ino 0 ((fs.data fromfd.ino).take n) := by
  simp only [memcpyMapped, List.take_take]
  split
  · exact ⟨_, rfl⟩
  · exact ⟨_, rfl⟩

/-- From its `stat` on `mmap_fileio` changes nothing, or stores the NUL, if the `write`
does, and then a front of the source. -/
theorem mmapCopy_fs (hi : fs.lookup src = some i) :
    ((mmapCopy fs src ⟨i, 0⟩ ⟨j, 0⟩ k).fs = fs ∧ ¬ (fs.data i ≠ [] ∧ ∃ n, k.stat = .done n)) ∨
      ∃ len n, (fs.data i).length = len + 1 ∧ (∃ n, k.stat = .done n) ∧
        ∃ grown, grown = (sysWrite fs ⟨j, len⟩ [0] k.write).2.1 ∧
          (mmapCopy fs src ⟨i, 0⟩ ⟨j, 0⟩ k).fs = grown.write j 0 ((grown.data i).take n) := by
  cases hs : k.stat with
  | done s =>
      have hstat : sysStat fs src k.stat = some (fs.data i).length := by
        simp [hs, sysStat, Fs.contents_eq_some hi]
      cases hlen : (fs.data i).length with
      | zero =>
          have hnil : fs.data i = [] := List.length_eq_zero_iff.mp hlen
          exact .inl ⟨by simp [mmapCopy, hstat, hnil], by simp [hnil]⟩
      | succ len =>
          have hino : (sysWrite fs ⟨j, len⟩ [0] k.write).2.2.ino = j := by cases k.write <;> rfl
          have hmapped := memcpyMapped_fs (sysWrite fs ⟨j, len⟩ [0] k.write).2.1 ⟨i, 0⟩
            (sysWrite fs ⟨j, len⟩ [0] k.write).2.2 (len + 1) k.copied
          obtain ⟨n, hmapped⟩ := hmapped
          rw [hino] at hmapped
          simp only [mmapCopy, hstat, hlen, lseek]
          split
          · exact .inr ⟨len, n, rfl, ⟨s, rfl⟩, _, rfl, hmapped⟩
          · exact .inr ⟨len, 0, rfl, ⟨s, rfl⟩, _, rfl, by simp⟩
  | eintr => exact .inl ⟨by simp [mmapCopy, hs, sysStat], by simp⟩
  | error => exact .inl ⟨by simp [mmapCopy, hs, sysStat], by simp⟩

/-- The store of the NUL changes a file only if it is the destination, and then its last
byte. -/
theorem sysWrite_nul {len : Nat} (hlen : (fs.data i).length = len + 1) (a : Answer) :
    (sysWrite fs ⟨j, len⟩ [0] a).2.1.lookup = fs.lookup ∧
      ((sysWrite fs ⟨j, len⟩ [0] a).2.1.data i = fs.data i ↔
        (j ≠ i ∨ (fs.data i).getLast? = some 0 ∨ ¬ ∃ n, a = .done (n + 1))) := by
  have hne : fs.data i ≠ [] := by
    intro hnil
    simp [hnil] at hlen
  match a with
  | .done (n + 1) =>
      refine ⟨Fs.lookup_write, ?_⟩
      by_cases hij : j = i
      · subst hij
        have hgrown : (fs.write j len [0]).data j = (fs.data j).dropLast ++ [0] := by
          rw [Fs.data_write (by simp), store_last hlen]
        simpa [sysWrite, hgrown] using append_nul_eq_iff hne
      · simpa [sysWrite, hij] using Fs.data_write_ne (Ne.symm hij)
  | .done 0 | .eintr | .error => simp [sysWrite]

/-- What `mmap_fileio` does to the source, from its `stat` on: only the NUL can change it. -/
theorem mmapCopy_source_iff (hi : fs.lookup src = some i) :
    (mmapCopy fs src ⟨i, 0⟩ ⟨j, 0⟩ k).fs.contents src = fs.contents src ↔
      (j ≠ i ∨ fs.data i = [] ∨ (fs.data i).getLast? = some 0 ∨ ¬ k.StoresNul) := by
  obtain ⟨hfs, hnot⟩ | ⟨len, n, hlen, hs, grown, rfl, hfs⟩ := mmapCopy_fs (j := j) (k := k) hi
  · simp only [hfs, true_iff]
    by_cases hnil : fs.data i = []
    · exact .inr (.inl hnil)
    · exact .inr (.inr (.inr fun hstores => hnot ⟨hnil, hstores.1⟩))
  · obtain ⟨hlookup, hnul⟩ := sysWrite_nul (j := j) hlen k.write
    have hne : fs.data i ≠ [] := by
      intro hnil
      simp [hnil] at hlen
    rw [hfs, Fs.contents_eq_some (i := i) (by rw [Fs.lookup_write, hlookup, hi]),
      Fs.data_write_front, Fs.contents_eq_some hi, Option.some_inj, hnul]
    simp [MmapAnswers.StoresNul, hs, hne]

/-! ## Whole runs -/

theorem regFileio_keeps_source (h : regFileio fs [prog, src, dst] answers = some r) :
    r.fs.contents src = fs.contents src := by
  obtain ⟨hfs, -⟩ | ⟨i, j, m, p, hi, -, -, -, hstop⟩ := regFileio_spec h
  · rw [hfs]
  · rw [Fs.contents_eq_some hi,
      Fs.contents_eq_some (i := i) (by rw [hstop.fs, Fs.lookup_write, Fs.lookup_create_of_some hi]),
      hstop.fs, Fs.data_write_front, Fs.data_create_of_lt (fs.lookup_lt hi)]

/-- `reg_fileio` never damages its source. `mmap_fileio`, once both opens have succeeded,
leaves it alone exactly if the names lead to different files, or the source is empty or
ends in a NUL already, or no NUL gets written. -/
theorem source_kept_iff (prog : Path)
    (hr : regFileio fs [prog, src, dst] answers = some r)
    (hfrom : rOpen2 fs src k.openFrom = some (some fromfd, rest))
    (hto : rOpen3 fs dst k.openTo = some (some tofd, fs', rest')) :
    r.fs.contents src = fs.contents src ∧
      ∃ w, mmapFileio fs [prog, src, dst] k = some w ∧
        (w.fs.contents src = fs.contents src ↔
          (fs.lookup dst ≠ fs.lookup src ∨ fs.contents src = some [] ∨
            (fs.contents src).bind List.getLast? = some 0 ∨ ¬ k.StoresNul)) := by
  refine ⟨regFileio_keeps_source hr, ?_⟩
  obtain ⟨-, ⟨hnone, -⟩ | ⟨i, hi, hfd⟩⟩ := rOpen2_spec hfrom
  · cases hnone
  obtain ⟨-, ⟨hnone, -⟩ | ⟨j, hj, rfl, hfd'⟩⟩ := rOpen3_spec hto
  · cases hnone
  cases hfd
  cases hfd'
  refine ⟨mmapCopy (fs.create dst) src ⟨i, 0⟩ ⟨j, 0⟩ k, by simp [mmapFileio, hfrom, hto], ?_⟩
  have hi' : (fs.create dst).lookup src = some i := Fs.lookup_create_of_some hi
  have hsame : j = i ↔ fs.lookup dst = some i := by
    rw [← Fs.lookup_create_eq_iff hi, hj, Option.some_inj]
  have hsource : (fs.create dst).contents src = fs.contents src := by
    rw [Fs.contents_eq_some hi', Fs.contents_eq_some hi, Fs.data_create_of_lt (fs.lookup_lt hi)]
  rw [← hsource, mmapCopy_source_iff hi', Fs.contents_eq_some hi', hi, ne_eq, hsame]
  simp

/-- A file that ends in a NUL copied over itself by both programs. -/
theorem nul_ended_file_kept : ∃ r, regFileio (twoFiles [1, 0] []) [[], [97], [97]]
      [.done 0, .done 0, .done 2, .done 2, .done 0] = some r ∧
    r.fs.contents [97] = some [1, 0] ∧
      ∃ w, mmapFileio (twoFiles [1, 0] []) [[], [97], [97]] promptAnswers = some w ∧
        w.fs.contents [97] = some [1, 0] := by
  obtain ⟨r, hr, -⟩ := Option.map_eq_some_iff.mp (show (regFileio (twoFiles [1, 0] [])
      [[], [97], [97]] [.done 0, .done 0, .done 2, .done 2, .done 0]).map RegResult.status =
      some 0 by decide)
  obtain ⟨hkept, w, hw, hiff⟩ := source_kept_iff [] (k := promptAnswers) hr rfl rfl
  have hcontents : (twoFiles [1, 0] []).contents [97] = some [1, 0] := by decide
  exact ⟨r, hr, hkept.trans hcontents, w, hw,
    (hiff.mpr (.inr (.inr (.inl (by decide))))).trans hcontents⟩

/-- A file of one byte copied over itself: `mmap_fileio` replaces the byte by a NUL. -/
theorem mmapFileio_damages_source : ∃ w,
    mmapFileio (twoFiles [1] []) [[], [97], [97]] promptAnswers = some w ∧
      (twoFiles [1] []).contents [97] = some [1] ∧ w.fs.contents [97] = some [0] := by
  obtain ⟨w, hw, hend⟩ := Option.map_eq_some_iff.mp (show (mmapFileio (twoFiles [1] [])
      [[], [97], [97]] promptAnswers).map (fun w => w.fs.contents [97]) = some (some [0]) by decide)
  exact ⟨w, hw, by decide, hend⟩

end KernelTrg.FileIo
