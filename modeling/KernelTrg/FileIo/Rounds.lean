import KernelTrg.FileIo.Copying

/-!
# The rounds of a copy

`copyfile` is a list of rounds that copy a block each, and a last round that finds the
end of the source or fails. Every fact about the loop is one about a single round,
carried along that list.
-/

namespace KernelTrg.FileIo

open Bytes

/-- Rounds of `readwrite` that copy blocks of the given lengths. -/
inductive Rounds : Copying → List Nat → Copying → Prop where
  | refl (c : Copying) : Rounds c [] c
  | step {c mid c' : Copying} {k : Nat} {ks : List Nat}
      (round : readwrite c = some (Int32.ofNat k, mid)) (pos : 0 < k) (lt : k < 2 ^ 31)
      (rest : Rounds mid ks c') : Rounds c (k :: ks) c'

variable {fs fs₀ : Fs} {i j : Ino} {p m fuel : Nat} {c c' mid : Copying} {n last total : Int32}
  {blocks : List Nat} {answers : List Answer}

theorem pos_ofNat {k : Nat} (hpos : 0 < k) (hlt : k < 2 ^ 31) : (0 : Int32) < Int32.ofNat k := by
  rw [Int32.lt_iff_toInt_lt, Int32.toInt_ofNat_of_lt hlt]
  simpa using hpos

theorem eq_ofNat_of_pos (hpos : 0 < n) : ∃ k, n = Int32.ofNat k ∧ 0 < k ∧ k < 2 ^ 31 := by
  have hint : 0 < n.toInt := by simpa using Int32.lt_iff_toInt_lt.mp hpos
  have hlt : n.toInt < 2 ^ 31 := Int32.toInt_lt n
  refine ⟨n.toInt.toNat, ?_, by omega, by omega⟩
  apply Int32.toInt_inj.mp
  rw [Int32.toInt_ofNat_of_lt (by omega)]
  omega

/-- The block loop is its rounds; the total is their sum, as far as an `int` holds it. -/
theorem copyLoop_rounds (h : copyLoop fuel total c = some (n, c')) :
    ∃ blocks mid last, Rounds c blocks mid ∧ readwrite mid = some (last, c') ∧ ¬0 < last ∧
      n = total + Int32.ofNat blocks.sum := by
  induction fuel generalizing total c with
  | zero => cases h
  | succ fuel ih =>
      obtain ⟨⟨bytesread, next⟩, hround, h⟩ := Option.bind_eq_some_iff.mp h
      replace h : (if 0 < bytesread then copyLoop fuel (total + bytesread) next
        else some (total, next)) = some (n, c') := h
      by_cases hpos : 0 < bytesread
      · rw [if_pos hpos] at h
        obtain ⟨blocks, mid, last, hrounds, hlast, hend, hsum⟩ := ih h
        obtain ⟨k, rfl, hk, hlt⟩ := eq_ofNat_of_pos hpos
        refine ⟨k :: blocks, mid, last, .step hround hk hlt hrounds, hlast, hend, ?_⟩
        rw [hsum, List.sum_cons, Int32.ofNat_add, Int32.add_assoc]
      · rw [if_neg hpos] at h
        cases h
        exact ⟨[], c, bytesread, .refl c, hround, hpos, by simp⟩

theorem copyfile_rounds (h : copyfile c = some (n, c')) :
    ∃ blocks mid last, Rounds c blocks mid ∧ readwrite mid = some (last, c') ∧ ¬0 < last ∧
      n = Int32.ofNat blocks.sum := by
  obtain ⟨blocks, mid, last, hrounds, hlast, hend, hsum⟩ := copyLoop_rounds h
  exact ⟨blocks, mid, last, hrounds, hlast, hend, by rw [hsum, Int32.zero_add]⟩

theorem Rounds.suffix (h : Rounds c blocks mid) : mid.answers <:+ c.answers := by
  induction h with
  | refl c => exact List.suffix_refl _
  | step round pos lt rest ih => exact ih.trans (readwrite_answers round).1

/-- The rounds copy a front of the source as long as their blocks, none of them longer than
the buffer. -/
theorem Rounds.copiedTo (h : Rounds c blocks mid) (hsep : j = i → p = 0)
    (hc : CopiedTo fs₀ i j p m c) :
    CopiedTo fs₀ i j p (m + blocks.sum) mid ∧ ∀ k ∈ blocks, k ≤ blkSize := by
  induction h generalizing m with
  | refl c => exact ⟨hc, by simp⟩
  | @step c next mid k ks round pos lt rest ih =>
      have hint : (Int32.ofNat k).toInt = k := Int32.toInt_ofNat_of_lt lt
      rcases hc.round hsep round with ⟨k', hpos, hle, heq, hnext⟩ | ⟨heq, -, -⟩ | ⟨heq, -, -⟩
      · have hsame : k = k' := by
          have hint' : (Int32.ofNat k').toInt = k' :=
            Int32.toInt_ofNat_of_lt (by simp only [blkSize] at hle; omega)
          rw [heq, hint'] at hint
          omega
        subst hsame
        obtain ⟨hmid, hall⟩ := ih hnext
        rw [Nat.add_assoc] at hmid
        exact ⟨hmid, by simpa [hle] using hall⟩
      · rw [heq] at hint
        simp at hint
        omega
      · rw [heq] at hint
        simp at hint

/-- The last round finds the source at its end or fails, perhaps within a block. -/
theorem CopiedTo.last_round (h : CopiedTo fs₀ i j p m mid) (hsep : j = i → p = 0)
    (hlast : readwrite mid = some (last, c')) (hend : ¬0 < last) :
    (m = (fs₀.data i).length ∧ CopiedTo fs₀ i j p m c') ∨
      (.error ∈ mid.answers ∧ ∃ part, part < blkSize ∧ m + part ≤ (fs₀.data i).length ∧
        c'.fs = fs₀.write j p ((fs₀.data i).take (m + part)) ∧ c'.tofd = ⟨j, p + (m + part)⟩) := by
  rcases h.round hsep hlast with ⟨k, hpos, hle, rfl, -⟩ | ⟨-, hm, hc'⟩ | ⟨-, herr, hpart⟩
  · exact absurd (pos_ofNat hpos (by simp only [blkSize] at hle; omega)) hend
  · exact .inl ⟨hm, hc'⟩
  · exact .inr ⟨herr, hpart⟩

/-! ## Where the copy stops -/

/-- Where `copyfile` may stop: the blocks up to `m` are copied, all of them unless a call
failed, and the failed write may have gone `k` bytes further. -/
structure Stopped (fs₀ : Fs) (i j : Ino) (m k : Nat) (answers : List Answer) (fs : Fs) :
    Prop where
  fs : fs = fs₀.write j 0 ((fs₀.data i).take (m + k))
  partly : k ≤ blkSize
  le : m + k ≤ (fs₀.data i).length
  whole : .error ∉ answers → m = (fs₀.data i).length

theorem CopiedTo.run (h : CopiedTo fs₀ i j 0 m c) (hr : copyLoop fuel total c = some (n, c')) :
    ∃ copied k, n = total + Int32.ofNat copied ∧
      Stopped fs₀ i j (m + copied) k c.answers c'.fs := by
  obtain ⟨blocks, mid, last, hrounds, hlast, hend, hsum⟩ := copyLoop_rounds hr
  obtain ⟨hmid, -⟩ := hrounds.copiedTo (fun _ => rfl) h
  rcases hmid.last_round (fun _ => rfl) hlast hend with ⟨hm, hc'⟩ | ⟨herr, part, hpart, hle, hfs, -⟩
  · exact ⟨blocks.sum, 0, hsum, hc'.fs, Nat.zero_le _, hm.le, fun _ => hm⟩
  · exact ⟨blocks.sum, part, hsum, hfs, hpart.le, hle,
      fun hok => absurd (hrounds.suffix.mem herr) hok⟩

end KernelTrg.FileIo
