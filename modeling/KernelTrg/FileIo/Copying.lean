import KernelTrg.FileIo.Programs

/-!
# What a copy does to the files

After `m` bytes the files are as at the start, but for the first `m` bytes of the
source stored at the front of the destination. This holds at every block boundary,
also where source and destination are one file, and a failed write leaves a longer
front of the source instead.
-/

namespace KernelTrg.FileIo

open Bytes

/-! ## The files -/

namespace Fs

variable {fs fs₀ : Fs} {i j ino : Ino} {path : Path} {m n pos : Nat}
  {bytes first second : List UInt8}

@[simp] theorem write_nil (fs : Fs) (ino : Ino) (pos : Nat) : fs.write ino pos [] = fs := rfl

@[simp] theorem lookup_write : (fs.write ino pos bytes).lookup = fs.lookup := by
  unfold write
  split <;> rfl

theorem data_write_ne (h : i ≠ ino) : (fs.write ino pos bytes).data i = fs.data i := by
  unfold write
  split
  · rfl
  · exact Function.update_of_ne h _ _

theorem data_write (h : bytes ≠ []) :
    (fs.write ino pos bytes).data ino = store 0 (fs.data ino) pos bytes := by
  unfold write
  rw [if_neg h]
  exact Function.update_self _ _ _

theorem data_write_start :
    (fs.write ino 0 bytes).data ino = bytes ++ (fs.data ino).drop bytes.length := by
  by_cases h : bytes = []
  · simp [h]
  · rw [data_write h, store_zero]

theorem take_drop_data_write (fs : Fs) (ino : Ino) (pos : Nat) (bytes : List UInt8) :
    (((fs.write ino pos bytes).data ino).drop pos).take bytes.length = bytes := by
  by_cases h : bytes = []
  · simp [h]
  · rw [data_write h, take_drop_store]

theorem write_write (fs : Fs) (ino : Ino) (pos : Nat) (first second : List UInt8) :
    (fs.write ino pos first).write ino (pos + first.length) second =
      fs.write ino pos (first ++ second) := by
  by_cases h₁ : first = []
  · simp [h₁]
  · by_cases h₂ : second = []
    · simp [h₂]
    · simp only [write, h₁, h₂, List.append_eq_nil_iff, and_self, if_false, Function.update_self,
        store_store, Function.update_idem]

/-- Storing the front of a file anywhere leaves that file as it is. -/
theorem data_write_front (fs : Fs) (i j : Ino) (m : Nat) :
    (fs.write j 0 ((fs.data i).take m)).data i = fs.data i := by
  by_cases h : i = j
  · subst h
    rw [data_write_start, List.length_take]
    by_cases hm : m ≤ (fs.data i).length
    · rw [Nat.min_eq_left hm, List.take_append_drop]
    · rw [Nat.min_eq_right (by omega), List.take_of_length_le (by omega), List.drop_length,
        List.append_nil]
  · exact data_write_ne h

end Fs

/-! ## Writing a buffer -/

theorem restart_suffix {answers rest : List Answer} {answer : Answer}
    (h : restart answers = some (answer, rest)) :
    answer ∈ answers ∧ rest <:+ answers ∧ rest.length < answers.length ∧ answer ≠ .eintr := by
  induction answers with
  | nil => cases h
  | cons a as ih =>
      cases a with
      | eintr =>
          obtain ⟨hmem, hsuffix, hlen, hne⟩ := ih h
          exact ⟨by simp [hmem], hsuffix.trans (List.suffix_cons _ _), by simp; omega, hne⟩
      | done k =>
          cases h
          exact ⟨by simp, List.suffix_cons _ _, by simp, by simp⟩
      | error =>
          cases h
          exact ⟨by simp, List.suffix_cons _ _, by simp, by simp⟩

theorem take_append_take_drop (buf : List UInt8) (k n : Nat) :
    buf.take k ++ (buf.drop (buf.take k).length).take n = buf.take ((buf.take k).length + n) := by
  rw [List.take_add, List.length_take, ← List.take_eq_take_min]

/-- `r_read` fails, or reads on from the offset. -/
theorem rRead_spec {fs : Fs} {f f' : OpenFile} {size : Nat} {answers rest : List Answer}
    {buf : Option (List UInt8)} (h : rRead fs f size answers = some (buf, f', rest)) :
    (restart answers = some (.error, rest) ∧ buf = none ∧ f' = f) ∨
      ∃ k, restart answers = some (.done k, rest) ∧
        buf = some (((fs.data f.ino).drop f.pos).take (min size (max k 1))) ∧
        f' = { f with
          pos := f.pos + (((fs.data f.ino).drop f.pos).take (min size (max k 1))).length } := by
  obtain ⟨⟨answer, rest'⟩, ha, hread⟩ := Option.map_eq_some_iff.mp h
  cases answer with
  | done k =>
      cases hread
      exact .inr ⟨k, ha, rfl, rfl⟩
  | eintr => exact absurd rfl (restart_suffix ha).2.2.2
  | error =>
      cases hread
      exact .inl ⟨ha, rfl, rfl⟩

/-- `r_write` stores a front of its buffer: all of it, unless a call fails. -/
theorem rWriteLoop_spec {fs fs' : Fs} {f f' : OpenFile} {buf : List UInt8} {total : Nat}
    {answers answers' : List Answer} {r : Option Nat}
    (h : rWriteLoop fs f buf total answers = some (r, fs', f', answers')) :
    ∃ n, n ≤ buf.length ∧ fs' = fs.write f.ino f.pos (buf.take n) ∧
      f' = { f with pos := f.pos + n } ∧ answers' <:+ answers ∧
      (r = some (total + buf.length) ∧ n = buf.length ∨
        r = none ∧ n < buf.length ∧ .error ∈ answers) := by
  induction answers generalizing fs f buf total with
  | nil =>
      cases buf with
      | nil =>
          cases h
          exact ⟨0, by simp, by simp, rfl, List.suffix_refl _, .inl ⟨rfl, rfl⟩⟩
      | cons b bs => cases h
  | cons a as ih =>
      cases buf with
      | nil =>
          cases h
          exact ⟨0, by simp, by simp, rfl, List.suffix_refl _, .inl ⟨rfl, rfl⟩⟩
      | cons b bs =>
          cases a with
          | done k =>
              obtain ⟨n, hn, rfl, rfl, hsuffix, hend⟩ := ih h
              have hlen : ((b :: bs).take k).length ≤ (b :: bs).length := List.length_take_le' _ _
              rw [List.length_drop] at hn
              refine ⟨((b :: bs).take k).length + n, by omega, ?_, ?_,
                hsuffix.trans (List.suffix_cons _ _), ?_⟩
              · rw [Fs.write_write, take_append_take_drop]
              · simp only [Nat.add_assoc]
              · rw [List.length_drop] at hend
                rcases hend with ⟨hr, hn⟩ | ⟨hr, hlt, hmem⟩
                · exact .inl ⟨by rw [hr]; congr 1; omega, by omega⟩
                · exact .inr ⟨hr, by omega, by simp [hmem]⟩
          | eintr =>
              obtain ⟨n, hn, rfl, rfl, hsuffix, hend⟩ := ih h
              refine ⟨n, hn, rfl, rfl, hsuffix.trans (List.suffix_cons _ _), ?_⟩
              exact hend.imp id fun hfail => ⟨hfail.1, hfail.2.1, by simp [hfail.2.2]⟩
          | error =>
              cases h
              exact ⟨0, by simp, by simp, rfl, List.suffix_cons _ _, .inr ⟨rfl, by simp, by simp⟩⟩

/-! ## One round of the copy -/

def nextBlock (c : Copying) (k : Nat) : List UInt8 :=
  ((c.fs.data c.fromfd.ino).drop c.fromfd.pos).take (min blkSize (max k 1))

inductive Readwrite (c : Copying) : Int32 → Copying → Prop where
  | readFailed {rest : List Answer} (answer : restart c.answers = some (.error, rest)) :
      Readwrite c (-1) { c with answers := rest }
  | atEnd {k : Nat} {rest : List Answer} (answer : restart c.answers = some (.done k, rest))
      (empty : nextBlock c k = []) : Readwrite c 0 { c with answers := rest }
  | written {k total : Nat} {rest rest' : List Answer} {fs : Fs} {tofd : OpenFile}
      (answer : restart c.answers = some (.done k, rest)) (nonempty : nextBlock c k ≠ [])
      (write : rWrite c.fs c.tofd (nextBlock c k) rest = some (some total, fs, tofd, rest')) :
      Readwrite c (Int32.ofNat (nextBlock c k).length)
        ⟨fs, { c.fromfd with pos := c.fromfd.pos + (nextBlock c k).length }, tofd, rest'⟩
  | writeFailed {k : Nat} {rest rest' : List Answer} {fs : Fs} {tofd : OpenFile}
      (answer : restart c.answers = some (.done k, rest)) (nonempty : nextBlock c k ≠ [])
      (write : rWrite c.fs c.tofd (nextBlock c k) rest = some (none, fs, tofd, rest')) :
      Readwrite c (-1)
        ⟨fs, { c.fromfd with pos := c.fromfd.pos + (nextBlock c k).length }, tofd, rest'⟩

variable {fs₀ : Fs} {i j : Ino} {p m k : Nat} {c c' : Copying} {n : Int32}

theorem readwrite_cases (hr : readwrite c = some (n, c')) : Readwrite c n c' := by
  obtain ⟨⟨buf, fromfd, rest⟩, hread, hr⟩ := Option.bind_eq_some_iff.mp hr
  rcases rRead_spec hread with ⟨answer, rfl, rfl⟩ | ⟨k, answer, hbuf, hfd⟩
  · cases hr
    exact .readFailed answer
  · have hblock : buf = some (nextBlock c k) := hbuf
    have hfd' : fromfd = { c.fromfd with pos := c.fromfd.pos + (nextBlock c k).length } := hfd
    cases hnext : nextBlock c k with
    | nil =>
        rw [hnext] at hblock hfd'
        subst hblock hfd'
        cases hr
        exact .atEnd answer hnext
    | cons b bs =>
        rw [hnext] at hblock
        subst hblock hfd'
        obtain ⟨⟨written, fs', tofd', rest'⟩, write, hend⟩ := Option.map_eq_some_iff.mp hr
        rw [← hnext] at write hend
        have nonempty : nextBlock c k ≠ [] := by simp [hnext]
        cases written with
        | none =>
            cases hend
            exact .writeFailed answer nonempty write
        | some total =>
            cases hend
            exact .written answer nonempty write

theorem readwrite_answers (hr : readwrite c = some (n, c')) :
    c'.answers <:+ c.answers ∧ c'.answers.length < c.answers.length := by
  cases readwrite_cases hr with
  | readFailed answer =>
      obtain ⟨-, hsuffix, hlen, -⟩ := restart_suffix answer
      exact ⟨hsuffix, hlen⟩
  | atEnd answer empty =>
      obtain ⟨-, hsuffix, hlen, -⟩ := restart_suffix answer
      exact ⟨hsuffix, hlen⟩
  | written answer nonempty write | writeFailed answer nonempty write =>
      obtain ⟨-, hsuffix, hlen, -⟩ := restart_suffix answer
      obtain ⟨-, -, -, -, hsuffix', -⟩ := rWriteLoop_spec write
      exact ⟨hsuffix'.trans hsuffix, hsuffix'.length_le.trans_lt hlen⟩

/-! ## The front of the source -/

/-- The first `m` bytes of file `i` of `fs₀` are copied to file `j`, from its offset `p` on. -/
structure CopiedTo (fs₀ : Fs) (i j : Ino) (p m : Nat) (c : Copying) : Prop where
  fs : c.fs = fs₀.write j p ((fs₀.data i).take m)
  fromfd : c.fromfd = ⟨i, m⟩
  tofd : c.tofd = ⟨j, p + m⟩
  le : m ≤ (fs₀.data i).length

theorem CopiedTo.start (fs₀ : Fs) (i j : Ino) (p : Nat) (answers : List Answer) :
    CopiedTo fs₀ i j p 0 ⟨fs₀, ⟨i, 0⟩, ⟨j, p⟩, answers⟩ where
  fs := by simp
  fromfd := rfl
  tofd := rfl
  le := Nat.zero_le _

/-- The source can still be read as it was, unless it is copied into itself further on. -/
theorem CopiedTo.source (h : CopiedTo fs₀ i j p m c) (hsep : j = i → p = 0) :
    c.fs.data i = fs₀.data i := by
  rw [h.fs]
  by_cases hij : j = i
  · rw [hsep hij, Fs.data_write_front]
  · exact Fs.data_write_ne fun e => hij e.symm

theorem CopiedTo.nextBlock_eq (h : CopiedTo fs₀ i j p m c) (hsep : j = i → p = 0) (k : Nat) :
    nextBlock c k = ((fs₀.data i).drop m).take (min blkSize (max k 1)) := by
  unfold nextBlock
  rw [h.fromfd, h.source hsep]

theorem CopiedTo.length_nextBlock (h : CopiedTo fs₀ i j p m c) (hsep : j = i → p = 0)
    (k : Nat) :
    (nextBlock c k).length = min (min blkSize (max k 1)) ((fs₀.data i).length - m) := by
  rw [h.nextBlock_eq hsep, List.length_take, List.length_drop]

theorem CopiedTo.write_block (h : CopiedTo fs₀ i j p m c) (hsep : j = i → p = 0) {w : Nat}
    (hw : w ≤ (nextBlock c k).length) :
    c.fs.write c.tofd.ino c.tofd.pos ((nextBlock c k).take w) =
      fs₀.write j p ((fs₀.data i).take (m + w)) := by
  rw [h.length_nextBlock hsep] at hw
  have hfront : min w (min blkSize (max k 1)) = w := by omega
  have hlen : ((fs₀.data i).take m).length = m := List.length_take_of_le h.le
  have hmerge := Fs.write_write fs₀ j p ((fs₀.data i).take m) (((fs₀.data i).drop m).take w)
  rw [hlen] at hmerge
  rw [h.nextBlock_eq hsep, List.take_take, hfront, h.tofd, h.fs, hmerge, ← List.take_add]

theorem CopiedTo.written {total : Nat} {rest rest' : List Answer} {fs : Fs} {tofd : OpenFile}
    (h : CopiedTo fs₀ i j p m c) (hsep : j = i → p = 0)
    (hwrite : rWrite c.fs c.tofd (nextBlock c k) rest = some (some total, fs, tofd, rest')) :
    CopiedTo fs₀ i j p (m + (nextBlock c k).length)
      ⟨fs, { c.fromfd with pos := c.fromfd.pos + (nextBlock c k).length }, tofd, rest'⟩ := by
  obtain ⟨w, hw, rfl, rfl, -, ⟨-, rfl⟩ | ⟨hnone, -⟩⟩ := rWriteLoop_spec hwrite
  · have hle := h.length_nextBlock hsep k
    refine ⟨h.write_block hsep hw, by simp [h.fromfd], by simp [h.tofd, Nat.add_assoc], ?_⟩
    have hm := h.le
    omega
  · cases hnone

/-- One round of the copy: a further block is copied, or the source is at its end, or a
call failed and a part of a block may have been written. -/
theorem CopiedTo.round (h : CopiedTo fs₀ i j p m c) (hsep : j = i → p = 0)
    (hr : readwrite c = some (n, c')) :
    (∃ k, 0 < k ∧ k ≤ blkSize ∧ n = Int32.ofNat k ∧ CopiedTo fs₀ i j p (m + k) c') ∨
      (n = 0 ∧ m = (fs₀.data i).length ∧ CopiedTo fs₀ i j p m c') ∨
      (n = -1 ∧ .error ∈ c.answers ∧ ∃ k, k < blkSize ∧ m + k ≤ (fs₀.data i).length ∧
        c'.fs = fs₀.write j p ((fs₀.data i).take (m + k)) ∧ c'.tofd = ⟨j, p + (m + k)⟩) := by
  have hm := h.le
  cases readwrite_cases hr with
  | readFailed answer =>
      have herr := (restart_suffix answer).1
      exact .inr (.inr ⟨rfl, herr, 0, by decide, by simpa using hm, h.fs, h.tofd⟩)
  | @atEnd k rest answer empty =>
      have hlen := h.length_nextBlock hsep k
      simp only [empty, List.length_nil, blkSize] at hlen
      exact .inr (.inl ⟨rfl, by omega, h.fs, h.fromfd, h.tofd, h.le⟩)
  | @written k total rest rest' fs tofd answer nonempty write =>
      have hlen := h.length_nextBlock hsep k
      exact .inl ⟨_, List.length_pos_of_ne_nil nonempty, by omega, rfl, h.written hsep write⟩
  | @writeFailed k rest rest' fs tofd answer nonempty write =>
      have hlen := h.length_nextBlock hsep k
      obtain ⟨-, hsuffix, -, -⟩ := restart_suffix answer
      obtain ⟨w, hw, rfl, rfl, -, ⟨hsome, -⟩ | ⟨-, hlt, herr⟩⟩ := rWriteLoop_spec write
      · cases hsome
      · exact .inr (.inr ⟨rfl, hsuffix.mem herr, w, by omega, by omega, h.write_block hsep hw,
          by simp [h.tofd, Nat.add_assoc]⟩)

end KernelTrg.FileIo
