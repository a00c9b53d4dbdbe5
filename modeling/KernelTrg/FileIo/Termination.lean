import KernelTrg.FileIo.Outcomes

/-!
# The block copy ends

Interruptions and writes that take nothing only delay the copy. It ends once the kernel
has given as many productive answers as two for every byte of the source and one for
the end of the file.
-/

namespace KernelTrg.FileIo

variable {fs fs₀ : Fs} {i j : Ino} {m fuel : Nat} {c : Copying} {answers : List Answer}
  {src : Path}

/-- How many answers let a call get on. -/
def productive : List Answer → Nat
  | [] => 0
  | .done (_ + 1) :: answers => productive answers + 1
  | _ :: answers => productive answers

theorem productive_replicate (n k : Nat) :
    productive (List.replicate n (.done (k + 1))) = n := by
  induction n with
  | zero => rfl
  | succ n ih => simp [List.replicate_succ, productive, ih]

theorem restart_ends (hok : .error ∉ answers) (h : 0 < productive answers) :
    ∃ n rest, restart answers = some (.done n, rest) ∧ .error ∉ rest ∧
      productive answers ≤ productive rest + 1 := by
  induction answers with
  | nil => cases h
  | cons a as ih =>
      have hok' : .error ∉ as := fun hmem => hok (List.mem_cons_of_mem _ hmem)
      match a with
      | .done 0 => exact ⟨0, as, rfl, hok', by simp [productive]⟩
      | .done (n + 1) => exact ⟨n + 1, as, rfl, hok', by simp [productive]⟩
      | .eintr => exact ih hok' h
      | .error => simp at hok

/-- `r_write` needs one productive answer for a byte at most. -/
theorem rWriteLoop_ends (fs : Fs) (f : OpenFile) (buf : List UInt8) (written : Nat)
    (hok : .error ∉ answers)
    (h : buf.length ≤ productive answers) :
    ∃ fs' f' rest, rWriteLoop fs f buf written answers =
        some (some (written + buf.length), fs', f', rest) ∧
      .error ∉ rest ∧ productive answers ≤ productive rest + buf.length := by
  induction answers generalizing fs f buf written with
  | nil =>
      have hnil : buf = [] := List.length_eq_zero_iff.mp (Nat.le_zero.mp h)
      subst hnil
      exact ⟨fs, f, [], rfl, hok, by simp⟩
  | cons a as ih =>
      have hok' : .error ∉ as := fun hmem => hok (List.mem_cons_of_mem _ hmem)
      cases buf with
      | nil => exact ⟨fs, f, a :: as, rfl, hok, by simp⟩
      | cons b bs =>
          match a with
          | .done 0 => exact ih fs f (b :: bs) written hok' h
          | .done (n + 1) =>
              -- at least one byte is written
              have htake : 0 < ((b :: bs).take (n + 1)).length := by simp
              have hle : ((b :: bs).take (n + 1)).length ≤ (b :: bs).length :=
                List.length_take_le' _ _
              have hdrop := List.length_drop (i := ((b :: bs).take (n + 1)).length)
                (l := b :: bs)
              simp only [productive] at h ⊢
              obtain ⟨fs', f', rest, hrun, hrest, hcount⟩ := ih
                (fs.write f.ino f.pos ((b :: bs).take (n + 1)))
                { f with pos := f.pos + ((b :: bs).take (n + 1)).length }
                ((b :: bs).drop ((b :: bs).take (n + 1)).length)
                (written + ((b :: bs).take (n + 1)).length) hok' (by omega)
              refine ⟨fs', f', rest, ?_, hrest, by omega⟩
              rw [show written + (b :: bs).length = written +
                ((b :: bs).take (n + 1)).length +
                ((b :: bs).drop ((b :: bs).take (n + 1)).length).length by omega]
              exact hrun
          | .eintr => exact ih fs f (b :: bs) written hok' h
          | .error => simp at hok

/-- One round needs a productive answer for the read and one for every byte. -/
theorem CopiedTo.round_ends (h : CopiedTo fs₀ i j 0 m c) (hok : .error ∉ c.answers)
    (hmany : 2 * ((fs₀.data i).length - m) < productive c.answers) :
    ∃ k c', readwrite c = some (Int32.ofNat k, c') ∧ k ≤ blkSize ∧
      k ≤ (fs₀.data i).length - m ∧ .error ∉ c'.answers ∧
      productive c.answers ≤ productive c'.answers + 1 + k := by
  obtain ⟨n, rest, hrestart, hrest, hcount⟩ := restart_ends hok (by omega)
  have hsource : c.fs.data i = fs₀.data i := by rw [h.fs, Fs.data_write_front]
  cases hblock : ((fs₀.data i).drop m).take (min blkSize (max n 1)) with
  | nil =>
      refine ⟨0, { c with fromfd := ⟨i, m⟩, answers := rest }, ?_, by simp, by simp, hrest, hcount⟩
      simp only [readwrite, rRead, hrestart, sysRead, h.fromfd, hsource, hblock, Option.map_some,
        Option.bind_some]
      rfl
  | cons b bs =>
      have hlen := congrArg List.length hblock
      simp only [List.length_take, List.length_drop, blkSize] at hlen
      obtain ⟨fs', tofd', rest', hwrite, hrest', hcount'⟩ := rWriteLoop_ends c.fs c.tofd
        (b :: bs) 0 hrest (by omega)
      refine ⟨(b :: bs).length, ⟨fs', ⟨i, m + (b :: bs).length⟩, tofd', rest'⟩, ?_,
        by simp only [blkSize]; omega, by omega, hrest', by simp only; omega⟩
      simp only [readwrite, rRead, hrestart, sysRead, h.fromfd, hsource, hblock, Option.map_some,
        Option.bind_some, rWrite, hwrite]

theorem CopiedTo.run_ends (h : CopiedTo fs₀ i j 0 m c) (total : Int32)
    (hfuel : c.answers.length < fuel) (hok : .error ∉ c.answers)
    (hmany : 2 * ((fs₀.data i).length - m) < productive c.answers) :
    ∃ n c', copyLoop fuel total c = some (n, c') := by
  induction fuel generalizing m total c with
  | zero => omega
  | succ fuel ih =>
      obtain ⟨k, mid, hround, hk, hleft, hrest, hcount⟩ := h.round_ends hok hmany
      have hshort := (readwrite_answers hround).2
      have hunroll : copyLoop (fuel + 1) total c = if 0 < Int32.ofNat k then
          copyLoop fuel (total + Int32.ofNat k) mid else some (total, mid) := by
        simp [copyLoop, hround]
      rw [hunroll]
      split
      next hpos =>
          rcases h.round (fun _ => rfl) hround with ⟨k', hpos', hk', heq, hmid⟩ | ⟨heq, -, -⟩ | ⟨heq, -, -⟩
          · have hsame : k = k' := by
              have hint := congrArg Int32.toInt heq
              rw [Int32.toInt_ofNat_of_lt (by simp only [blkSize] at hk; omega),
                Int32.toInt_ofNat_of_lt (by simp only [blkSize] at hk'; omega)] at hint
              omega
            subst hsame
            exact ih hmid _ (by omega) hrest (by omega)
          · rw [heq] at hpos
            exact absurd hpos (by decide)
          · rw [heq] at hpos
            exact absurd hpos (by decide)
      next => exact ⟨total, mid, rfl⟩

theorem regFileio_ends (prog dst : Path) (hsrc : fs.lookup src = some i)
    (hok : .error ∉ answers) (hmany : 2 * (fs.data i).length + 3 ≤ productive answers) :
    ∃ r, regFileio fs [prog, src, dst] answers = some r ∧ r.status = 0 := by
  obtain ⟨n, rest, hrestart, hrest, hcount⟩ := restart_ends hok (by omega)
  obtain ⟨n', rest', hrestart', hrest', hcount'⟩ := restart_ends hrest (by omega)
  obtain ⟨j, hj, -⟩ := fs.lookup_create dst
  have hdata : (fs.create dst).data i = fs.data i := Fs.data_create_of_lt (fs.lookup_lt hsrc)
  obtain ⟨total, c, hcopy⟩ := (CopiedTo.start (fs.create dst) i j 0 rest').run_ends 0
    (Nat.lt_succ_self _) hrest' (by rw [hdata]; simp only; omega)
  refine ⟨⟨c.fs, some total, 0⟩, ?_, rfl⟩
  simp only [regFileio, rOpen2, rOpen3, hrestart, hrestart', sysOpen, Option.map_some,
    Option.bind_some, hsrc, if_true, hj, Bool.false_eq_true, if_false]
  unfold copyfile
  rw [hcopy]
  rfl

end KernelTrg.FileIo
