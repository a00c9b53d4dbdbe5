import KernelTrg.FileIo.Outcomes
import KernelTrg.FileIo.Termination

/-!
# What `copyfile` returns

The number that `copyfile` returns is the length of the blocks it has written, as far as
an `int` holds it, and the destination holds that much of the source.
-/

namespace KernelTrg.FileIo

open Bytes

variable {fs : Fs} {i j : Ino} {p : Nat} {c c' mid : Copying} {n : Int32}
  {blocks : List Nat} {answers rest : List Answer} {src dst prog : Path} {r : RegResult}

/-! ## The prefix that is delivered -/

/-- The source is delivered up to a block boundary, and at most one block is written in part,
from that boundary on. -/
structure Delivered (fs₀ : Fs) (i j : Ino) (p : Nat) (blocks : List Nat) (part : Nat) (fs : Fs) :
    Prop where
  block_le : ∀ k ∈ blocks, k ≤ blkSize
  part_lt : part < blkSize
  le : blocks.sum + part ≤ (fs₀.data i).length
  stored : fs = fs₀.write j p ((fs₀.data i).take (blocks.sum + part))
  front : ((fs.data j).drop p).take (blocks.sum + part) =
    (fs₀.data i).take (blocks.sum + part)

/-- At every return of `copyfile` the source is delivered up to the number returned, which is
the length of the blocks written, however the calls are answered. -/
theorem copyfile_delivers (hsep : j = i → p = 0) (hlen : (fs.data i).length < 2 ^ 31)
    (h : copyfile ⟨fs, ⟨i, 0⟩, ⟨j, p⟩, answers⟩ = some (n, c')) :
    ∃ blocks mid last part, Rounds ⟨fs, ⟨i, 0⟩, ⟨j, p⟩, answers⟩ blocks mid ∧
      readwrite mid = some (last, c') ∧ ¬0 < last ∧ n.toInt = blocks.sum ∧
      mid.fs = fs.write j p ((fs.data i).take blocks.sum) ∧
      Delivered fs i j p blocks part c'.fs := by
  obtain ⟨blocks, mid, last, hrounds, hlast, hend, hsum⟩ := copyfile_rounds h
  obtain ⟨hmid, hall⟩ := hrounds.copiedTo hsep (CopiedTo.start fs i j p answers)
  rw [Nat.zero_add] at hmid
  have htotal : n.toInt = blocks.sum := by
    have hle := hmid.le
    rw [hsum, Int32.toInt_ofNat_of_lt (by omega)]
  have hpart : ∃ part, part < blkSize ∧ blocks.sum + part ≤ (fs.data i).length ∧
      c'.fs = fs.write j p ((fs.data i).take (blocks.sum + part)) := by
    rcases hmid.last_round hsep hlast hend with ⟨hm, hc'⟩ | ⟨-, part, hlt, hle, hfs, -⟩
    · exact ⟨0, by decide, hm.le, hc'.fs⟩
    · exact ⟨part, hlt, hle, hfs⟩
  obtain ⟨part, hlt, hle, hfs⟩ := hpart
  refine ⟨blocks, mid, last, part, hrounds, hlast, hend, htotal, hmid.fs, hall, hlt, hle, hfs, ?_⟩
  have hfront := Fs.take_drop_data_write fs j p ((fs.data i).take (blocks.sum + part))
  rw [List.length_take_of_le hle] at hfront
  rw [hfs, hfront]

/-- A copy to offset 1 with an interrupted write, which fails within its second block. -/
theorem copyfile_delivers_part : ∃ n c',
    copyfile ⟨twoFiles [1, 2, 3, 4] [9], ⟨0, 0⟩, ⟨1, 1⟩,
      [.done 2, .done 1, .eintr, .done 1, .done 9, .done 1, .error]⟩ = some (n, c') ∧
    ∃ blocks mid last part, Rounds ⟨twoFiles [1, 2, 3, 4] [9], ⟨0, 0⟩, ⟨1, 1⟩,
        [.done 2, .done 1, .eintr, .done 1, .done 9, .done 1, .error]⟩ blocks mid ∧
      readwrite mid = some (last, c') ∧ ¬0 < last ∧ n.toInt = blocks.sum ∧
      mid.fs = (twoFiles [1, 2, 3, 4] [9]).write 1 1
        (((twoFiles [1, 2, 3, 4] [9]).data 0).take blocks.sum) ∧
      Delivered (twoFiles [1, 2, 3, 4] [9]) 0 1 1 blocks part c'.fs := by
  obtain ⟨⟨n, c'⟩, h, -⟩ := Option.map_eq_some_iff.mp (show (copyfile ⟨twoFiles [1, 2, 3, 4] [9],
      ⟨0, 0⟩, ⟨1, 1⟩, [.done 2, .done 1, .eintr, .done 1, .done 9, .done 1, .error]⟩).map
      (fun out => (out.1, out.2.fs.data 1)) = some (2, [9, 1, 2, 3]) by decide)
  exact ⟨n, c', h, copyfile_delivers (by decide) (by decide) h⟩

/-! ## The number that is printed -/

/-- Without errors `reg_fileio` prints the length of the source, and its total stays within
an `int`, exactly where that length is an `int`. -/
theorem regFileio_total_iff (hsrc : fs.lookup src = some i) (hok : .error ∉ answers)
    (h : regFileio fs [prog, src, dst] answers = some r) :
    (r.printed.map Int32.toInt = some ((fs.data i).length : Int) ∧
      ∀ c blocks mid, Started fs src dst answers c → Rounds c blocks mid →
        blocks.sum < 2 ^ 31) ↔
      (fs.data i).length < 2 ^ 31 := by
  have hsource : (fs.create dst).data i = fs.data i := Fs.data_create_of_lt (fs.lookup_lt hsrc)
  constructor
  · intro h
    rcases h with ⟨hprinted, -⟩
    obtain ⟨n, -, hn⟩ := Option.map_eq_some_iff.mp hprinted
    have hlt : n.toInt < 2 ^ 31 := Int32.toInt_lt n
    omega
  · intro hlen
    constructor
    · obtain ⟨-, -, hnone | herr⟩ | ⟨i', j, m, p, hi, -, hprinted, -, hstop⟩ := regFileio_spec h
      · rw [hsrc] at hnone
        cases hnone
      · exact absurd herr hok
      · cases hsrc.symm.trans hi
        have hm : m = (fs.data i).length := by rw [hstop.whole hok, hsource]
        rw [hprinted, hm, Option.map_some, Int32.toInt_ofNat_of_lt hlen]
    · intro c blocks mid hstarted hrounds
      obtain ⟨i', j, hi, -, -, hc⟩ := hstarted.spec
      cases hsrc.symm.trans hi
      obtain ⟨hmid, -⟩ := hrounds.copiedTo (fun _ => rfl) hc
      have hle := hmid.le
      rw [hsource] at hle
      omega

/-- A file of `n` NULs is copied, however large, and `n` is printed as an `int`. -/
theorem regFileio_nuls (n : Nat) : ∃ r,
    regFileio (twoFiles (List.replicate n 0) []) [[], [97], [98]]
      (List.replicate (2 * n + 3) (.done 1)) = some r ∧ r.printed = some (Int32.ofNat n) ∧
    r.fs.contents [98] = some (List.replicate n 0) := by
  have hsrc : (twoFiles (List.replicate n 0) []).lookup [97] = some 0 := rfl
  have hdata : (twoFiles (List.replicate n 0) []).data 0 = List.replicate n 0 := rfl
  have hok : Answer.error ∉ List.replicate (2 * n + 3) (Answer.done 1) := by simp
  obtain ⟨r, hr, hstatus⟩ := regFileio_ends [] [98] hsrc hok
    (by rw [hdata, List.length_replicate, productive_replicate])
  refine ⟨r, hr, ?_, ?_⟩
  · obtain ⟨-, hfail, -⟩ | ⟨i, j, m, p, hi, -, hprinted, -, hstop⟩ := regFileio_spec hr
    · rw [hstatus] at hfail
      cases hfail
    · cases hsrc.symm.trans hi
      have hm := hstop.whole hok
      rw [Fs.data_create_of_lt (show 0 < 2 by decide), hdata, List.length_replicate] at hm
      rw [hprinted, hm]
  · rw [regFileio_complete hsrc hok hr, hdata]
    simp [Fs.contents, twoFiles]

/-- The copy of a file of 3 bytes. -/
theorem regFileio_total_three : ∃ r,
    regFileio (twoFiles [1, 2, 3] []) [[], [97], [98]]
      [.done 0, .done 0, .done 2, .eintr, .done 2, .done 1, .done 9, .done 9] = some r ∧
    r.printed.map Int32.toInt = some 3 := by
  obtain ⟨r, hr, -⟩ := Option.map_eq_some_iff.mp (show (regFileio (twoFiles [1, 2, 3] [])
      [[], [97], [98]] [.done 0, .done 0, .done 2, .eintr, .done 2, .done 1, .done 9, .done 9]).map
      RegResult.status = some 0 by decide)
  exact ⟨r, hr, ((regFileio_total_iff (i := 0) rfl (by decide) hr).mpr (by decide)).1⟩

/-- Of a file of 2 GiB all bytes are copied, and a negative number of them is printed. -/
theorem regFileio_total_wraps : ∃ r,
    regFileio (twoFiles (List.replicate (2 ^ 31) 0) []) [[], [97], [98]]
      (List.replicate (2 * 2 ^ 31 + 3) (.done 1)) = some r ∧
    r.fs.contents [98] = some (List.replicate (2 ^ 31) 0) ∧
    r.printed.map Int32.toInt = some (-2 ^ 31) := by
  obtain ⟨r, hr, hprinted, hcontents⟩ := regFileio_nuls (2 ^ 31)
  exact ⟨r, hr, hcontents, by rw [hprinted]; rfl⟩

end KernelTrg.FileIo
