import KernelTrg.FileIo.Termination
import KernelTrg.FileIo.Outcomes

/-!
# Reading blocks and lines

`readblock` and `readline` go on after short reads and interruptions until they have a
whole block or line. What they return depends on the content of the file from the
offset on and on nothing else, as long as no call fails; so blocks and lines that were
written by `r_write` are read back one for one.
-/

namespace KernelTrg.FileIo

open Bytes

/-- `errno` where a function of the library returns -1: its own `EINVAL` or `ETIME`, or that of
a call. -/
inductive Errno where
  | einval
  | etime
  | call
deriving DecidableEq, Repr

/-- The return value, the bytes in the buffer, the descriptor and the answers left. -/
structure Got where
  ret : Except Errno Nat
  buf : List UInt8
  fd : OpenFile
  answers : List Answer

/-- The loop of `readblock`, which has stored `buf` and has `bytestoread` before it. The length of
`buf` is `totalbytes`. -/
def readblockLoop (fs : Fs) : OpenFile → Nat → List UInt8 → List Answer → Option Got
  | fd, 0, buf, answers => some ⟨.ok buf.length, buf, fd, answers⟩
  | _, _ + 1, _, [] => none
  | fd, n + 1, buf, answer :: answers =>
      match sysRead fs fd (n + 1) answer with
      | (some [], fd) =>
          if buf = [] then some ⟨.ok 0, buf, fd, answers⟩
          else some ⟨.error .einval, buf, fd, answers⟩
      | (some (b :: bs), fd) =>
          readblockLoop fs fd (n + 1 - (b :: bs).length) (buf ++ b :: bs) answers
      | (none, fd) =>
          if answer = .eintr then readblockLoop fs fd (n + 1) buf answers
          else some ⟨.error .call, buf, fd, answers⟩
termination_by structural _ _ _ answers => answers

def readblock (fs : Fs) (fd : OpenFile) (size : Nat) (answers : List Answer) : Option Got :=
  readblockLoop fs fd size [] answers

/-- The loop of `readline`, which has stored `buf`; its length is `numread`. -/
def readlineLoop (fs : Fs) (nbytes : Int) : OpenFile → List UInt8 → List Answer → Option Got
  | fd, buf, answers =>
      if (buf.length : Int) < nbytes - 1 then
        match answers with
        | [] => none
        | answer :: answers =>
            match sysRead fs fd 1 answer with
            | (none, fd) =>
                if answer = .eintr then readlineLoop fs nbytes fd buf answers
                else some ⟨.error .call, buf, fd, answers⟩
            | (some [], fd) =>
                if buf = [] then some ⟨.ok 0, buf, fd, answers⟩
                else some ⟨.error .einval, buf, fd, answers⟩
            | (some (b :: _), fd) =>
                if b = 10 then some ⟨.ok (buf.length + 1), buf ++ [b, 0], fd, answers⟩
                else readlineLoop fs nbytes fd (buf ++ [b]) answers
      else some ⟨.error .einval, buf, fd, answers⟩
termination_by structural _ _ answers => answers

def readline (fs : Fs) (fd : OpenFile) (nbytes : Int) (answers : List Answer) : Option Got :=
  readlineLoop fs nbytes fd [] answers

variable {fs : Fs} {fd : OpenFile} {n size : Nat} {nbytes : Int} {buf item more tail : List UInt8}
  {answers : List Answer}

/-! ## One block -/

theorem mem_error_cons {a : Answer} (h : .error ∉ a :: answers) : a ≠ .error ∧ .error ∉ answers :=
  ⟨fun e => h (by simp [e]), fun hm => h (List.mem_cons_of_mem _ hm)⟩

/-- An answer that lets a `read` get on, whatever it asks for. -/
theorem productive_cons_done (k : Nat) (answers : List Answer) :
    productive (.done k :: answers) ≤ productive answers + 1 := by
  cases k with
  | zero => exact Nat.le_succ _
  | succ k => exact Nat.le_refl _

theorem readblockLoop_reads (fs : Fs) (fd : OpenFile) (n : Nat) (buf : List UInt8)
    (hok : .error ∉ answers) (hrem : n ≤ ((fs.data fd.ino).drop fd.pos).length)
    (hp : n ≤ productive answers) :
    ∃ rest, readblockLoop fs fd n buf answers = some ⟨.ok (buf.length + n),
        buf ++ ((fs.data fd.ino).drop fd.pos).take n, { fd with pos := fd.pos + n }, rest⟩ ∧
      .error ∉ rest ∧ productive answers ≤ productive rest + n := by
  induction answers generalizing fd n buf with
  | nil =>
      have hn : n = 0 := Nat.le_zero.mp hp
      subst hn
      exact ⟨[], by simp [readblockLoop], hok, by simp⟩
  | cons a as ih =>
      obtain ⟨ha, hok'⟩ := mem_error_cons hok
      cases n with
      | zero => exact ⟨a :: as, by simp [readblockLoop], hok, by simp⟩
      | succ n =>
          cases a with
          | error => exact absurd rfl ha
          | eintr =>
              obtain ⟨rest, hrun, hrest, hcount⟩ := ih fd (n + 1) buf hok' hrem hp
              exact ⟨rest, hrun, hrest, hcount⟩
          | done k =>
              have hstep := productive_cons_done k as
              generalize hbytes : ((fs.data fd.ino).drop fd.pos).take (min (n + 1) (max k 1)) = bytes
              have hlen : bytes.length = min (n + 1) (max k 1) := by
                rw [← hbytes, List.length_take]
                omega
              cases bytes with
              | nil =>
                  simp only [List.length_nil] at hlen
                  omega
              | cons b bs =>
                  have hread : sysRead fs fd (n + 1) (.done k) =
                      (some (b :: bs), { fd with pos := fd.pos + (b :: bs).length }) := by
                    simp only [sysRead, hbytes]
                  have hpos : 0 < (b :: bs).length := by simp
                  have hdrop : (fs.data fd.ino).drop (fd.pos + (b :: bs).length) =
                      ((fs.data fd.ino).drop fd.pos).drop (b :: bs).length := by
                    rw [List.drop_drop]
                  obtain ⟨rest, hrun, hrest, hcount⟩ := ih
                    { fd with pos := fd.pos + (b :: bs).length }
                    (n + 1 - (b :: bs).length) (buf ++ b :: bs) hok'
                    (by
                      rw [hdrop, List.length_drop]
                      omega)
                    (by omega)
                  refine ⟨rest, ?_, hrest, by omega⟩
                  have htake : b :: bs = ((fs.data fd.ino).drop fd.pos).take (b :: bs).length := by
                    rw [hlen, hbytes]
                  have hsplit : n + 1 = (b :: bs).length + (n + 1 - (b :: bs).length) := by omega
                  rw [readblockLoop, hread]
                  simp only
                  rw [hrun, hdrop]
                  have hwhole : ((fs.data fd.ino).drop fd.pos).take (n + 1) = b :: bs ++
                      (((fs.data fd.ino).drop fd.pos).drop (b :: bs).length).take
                        (n + 1 - (b :: bs).length) := by
                    conv_lhs => rw [hsplit, List.take_add, ← htake]
                  rw [hwhole]
                  simp only [List.length_append, List.append_assoc, Nat.add_assoc]
                  rw [← hsplit]

/-- With less than a block left, the rest is read and refused, unless there is none. -/
theorem readblockLoop_short (fs : Fs) (fd : OpenFile) (n : Nat) (buf : List UInt8)
    (hok : .error ∉ answers)
    (hrem : ((fs.data fd.ino).drop fd.pos).length < n)
    (hp : ((fs.data fd.ino).drop fd.pos).length < productive answers) :
    ∃ rest, readblockLoop fs fd n buf answers = some
        ⟨if buf ++ (fs.data fd.ino).drop fd.pos = [] then .ok 0 else .error .einval,
          buf ++ (fs.data fd.ino).drop fd.pos,
          { fd with pos := fd.pos + ((fs.data fd.ino).drop fd.pos).length }, rest⟩ := by
  induction answers generalizing fd n buf with
  | nil => cases hp
  | cons a as ih =>
      obtain ⟨ha, hok'⟩ := mem_error_cons hok
      cases n with
      | zero => cases hrem
      | succ n =>
          cases a with
          | error => exact absurd rfl ha
          | eintr => exact ih fd (n + 1) buf hok' hrem hp
          | done k =>
              have hstep := productive_cons_done k as
              generalize hleft : (fs.data fd.ino).drop fd.pos = left at hrem hp ⊢
              have hread : sysRead fs fd (n + 1) (.done k) =
                  (some (left.take (min (n + 1) (max k 1))),
                    { fd with pos := fd.pos + (left.take (min (n + 1) (max k 1))).length }) := by
                simp only [sysRead, hleft]
              cases left with
              | nil =>
                  refine ⟨as, ?_⟩
                  rw [List.take_nil] at hread
                  rw [readblockLoop, hread]
                  cases buf <;> simp
              | cons b bs =>
                  obtain ⟨m, hm⟩ : ∃ m, min (n + 1) (max k 1) = m + 1 :=
                    Nat.exists_eq_succ_of_ne_zero (by omega)
                  rw [hm, List.take_succ_cons] at hread
                  generalize hfront : bs.take m = front at hread
                  have hdrop : (fs.data fd.ino).drop (fd.pos + (b :: front).length) =
                      bs.drop front.length := by
                    rw [← List.drop_drop, hleft, List.length_cons, List.drop_succ_cons]
                  have hbs : front ++ bs.drop front.length = bs := by
                    rw [← hfront, List.length_take]
                    conv_rhs => rw [← List.take_append_drop m bs]
                    by_cases hle : m ≤ bs.length
                    · rw [Nat.min_eq_left hle]
                    · rw [Nat.min_eq_right (by omega), List.drop_length, List.drop_of_length_le
                        (by omega)]
                  have hlen := congrArg List.length hbs
                  simp only [List.length_append, List.length_cons] at hlen hrem hp
                  obtain ⟨rest, hrun⟩ := ih
                    { fd with pos := fd.pos + (b :: front).length }
                    (n + 1 - (b :: front).length) (buf ++ b :: front) hok'
                    (by
                      rw [hdrop, List.length_cons]
                      omega)
                    (by
                      rw [hdrop]
                      omega)
                  refine ⟨rest, ?_⟩
                  rw [readblockLoop, hread]
                  simp only
                  rw [hrun, hdrop]
                  simp only [List.append_assoc, List.cons_append, hbs, List.length_cons]
                  have hpos : fd.pos + (front.length + 1) + (bs.drop front.length).length =
                      fd.pos + (bs.length + 1) := by omega
                  rw [hpos]

/-! ## One line -/

theorem sysRead_one (k : Nat) (fs : Fs) (fd : OpenFile) :
    sysRead fs fd 1 (.done k) = (some (((fs.data fd.ino).drop fd.pos).take 1),
      { fd with pos := fd.pos + (((fs.data fd.ino).drop fd.pos).take 1).length }) := by
  have hmin : min 1 (max k 1) = 1 := by omega
  rw [sysRead, hmin]

theorem readlineLoop_reads (fs : Fs) (fd : OpenFile) (nbytes : Int) (buf pre : List UInt8)
    (hok : .error ∉ answers)
    (hrem : (fs.data fd.ino).drop fd.pos = pre ++ 10 :: more) (hpre : 10 ∉ pre)
    (hfits : (buf.length + (pre.length + 1) : Int) ≤ nbytes - 1)
    (hp : pre.length + 1 ≤ productive answers) :
    ∃ rest, readlineLoop fs nbytes fd buf answers = some ⟨.ok (buf.length + (pre.length + 1)),
        buf ++ pre ++ [10, 0], { fd with pos := fd.pos + (pre.length + 1) }, rest⟩ ∧
      .error ∉ rest ∧ productive answers ≤ productive rest + (pre.length + 1) := by
  induction answers generalizing fd buf pre with
  | nil => cases hp
  | cons a as ih =>
      obtain ⟨ha, hok'⟩ := mem_error_cons hok
      have hroom : (buf.length : Int) < nbytes - 1 := by omega
      rw [readlineLoop, if_pos hroom]
      cases a with
      | error => exact absurd rfl ha
      | eintr => exact ih fd buf pre hok' hrem hpre hfits hp
      | done k =>
          have hstep := productive_cons_done k as
          have hread := sysRead_one k fs fd
          rw [hrem] at hread
          cases pre with
          | nil =>
              refine ⟨as, ?_, hok', by simpa using hstep⟩
              simp only [hread]
              simp
          | cons b pre =>
              have hb : b ≠ 10 := fun e => hpre (by simp [e])
              have hdrop : (fs.data fd.ino).drop (fd.pos + 1) = pre ++ 10 :: more := by
                rw [← List.drop_drop, hrem]
                rfl
              simp only [List.length_cons] at hfits hp
              obtain ⟨rest, hrun, hrest, hcount⟩ := ih { fd with pos := fd.pos + 1 }
                (buf ++ [b]) pre hok' hdrop
                (fun hm => hpre (List.mem_cons_of_mem _ hm))
                (by
                  simp only [List.length_append, List.length_singleton]
                  omega)
                (by omega)
              refine ⟨rest, ?_, hrest, ?_⟩
              · simp only [hread, List.cons_append, List.take_succ_cons, List.take_zero,
                  List.length_singleton, hb, if_false]
                have hlen : (buf ++ [b]).length + (pre.length + 1) =
                    buf.length + (pre.length + 1 + 1) := by
                  simp only [List.length_append, List.length_singleton]
                  omega
                have hpos : fd.pos + 1 + (pre.length + 1) = fd.pos + (pre.length + 1 + 1) := by omega
                have hbuf : buf ++ [b] ++ pre ++ [10, 0] = buf ++ b :: pre ++ [10, 0] := by simp
                rw [hrun, hlen, hbuf]
                simp only [hpos, List.length_cons]
              · simp only [List.length_cons]
                omega

/-- Without a newline within the room left, `readline` takes what there is room for and refuses
it, unless the file is at its end. -/
theorem readlineLoop_short (fs : Fs) (fd : OpenFile) (nbytes : Int) (buf : List UInt8) (w : Nat)
    (hok : .error ∉ answers)
    (hw : w = (nbytes - 1 - buf.length).toNat)
    (hrem : 10 ∉ ((fs.data fd.ino).drop fd.pos).take w)
    (hp : (((fs.data fd.ino).drop fd.pos).take w).length < productive answers) :
    ∃ rest, readlineLoop fs nbytes fd buf answers = some
        ⟨if 0 < w ∧ buf ++ (fs.data fd.ino).drop fd.pos = [] then .ok 0 else .error .einval,
          buf ++ ((fs.data fd.ino).drop fd.pos).take w,
          { fd with pos := fd.pos + (((fs.data fd.ino).drop fd.pos).take w).length }, rest⟩ := by
  induction answers generalizing fd buf w with
  | nil => cases hp
  | cons a as ih =>
      obtain ⟨ha, hok'⟩ := mem_error_cons hok
      rw [readlineLoop]
      by_cases hroom : (buf.length : Int) < nbytes - 1
      · rw [if_pos hroom]
        obtain ⟨v, rfl⟩ : ∃ v, w = v + 1 := Nat.exists_eq_succ_of_ne_zero (by omega)
        cases a with
        | error => exact absurd rfl ha
        | eintr => exact ih fd buf _ hok' hw hrem hp
        | done k =>
            have hstep := productive_cons_done k as
            have hread := sysRead_one k fs fd
            generalize hleft : (fs.data fd.ino).drop fd.pos = left at hrem hp hread ⊢
            cases left with
            | nil =>
                refine ⟨as, ?_⟩
                simp only [hread, List.take_nil]
                cases buf <;> simp
            | cons b bs =>
                have hb : b ≠ 10 := fun e => hrem (by simp [e])
                have hdrop : (fs.data fd.ino).drop (fd.pos + 1) = bs := by
                  rw [← List.drop_drop, hleft]
                  rfl
                simp only [List.take_succ_cons, List.length_cons] at hp
                obtain ⟨rest, hrun⟩ := ih { fd with pos := fd.pos + 1 }
                  (buf ++ [b]) v hok'
                  (by
                    simp only [List.length_append, List.length_singleton]
                    omega)
                  (by
                    rw [hdrop]
                    exact fun hm => hrem (by simp [hm]))
                  (by
                    rw [hdrop]
                    omega)
                refine ⟨rest, ?_⟩
                simp only [hread, List.take_succ_cons, List.take_zero, List.length_singleton, hb,
                  if_false]
                rw [hrun, hdrop]
                simp only [List.append_assoc, List.singleton_append, List.length_cons]
                have hpos : fd.pos + 1 + (bs.take v).length = fd.pos + ((bs.take v).length + 1) := by
                  omega
                rw [hpos]
                simp
      · have hzero : w = 0 := by omega
        subst hzero
        rw [if_neg hroom]
        exact ⟨a :: as, by simp⟩

/-! ## A file of blocks or lines -/

/-- Calls of one of the functions in a row, each going on where the last one stopped. -/
def inRow (call : OpenFile → List Answer → Option Got) :
    Nat → OpenFile → List Answer → Option (List Got)
  | 0, _, _ => some []
  | n + 1, fd, answers =>
      (call fd answers).bind fun g => (inRow call n g.fd g.answers).map (g :: ·)

/-- When each call takes one item and the last one stops before the tail, the calls return the
items in order. -/
theorem inRow_items {call : OpenFile → List Answer → Option Got} {ino : Ino}
    (frame : List UInt8 → List UInt8) {last : Except Errno Nat} {left : List UInt8}
    {items : List (List UInt8)} (cost : Nat) {pos : Nat}
    (hcall : ∀ item ∈ items, ∀ more pos answers, (fs.data ino).drop pos = item ++ more →
      .error ∉ answers → item.length ≤ productive answers →
      ∃ rest, call ⟨ino, pos⟩ answers =
          some ⟨.ok item.length, frame item, ⟨ino, pos + item.length⟩, rest⟩ ∧
        .error ∉ rest ∧ productive answers ≤ productive rest + item.length)
    (hlast : ∀ pos answers, (fs.data ino).drop pos = tail → .error ∉ answers →
      cost ≤ productive answers → ∃ fd rest, call ⟨ino, pos⟩ answers = some ⟨last, left, fd, rest⟩)
    (hdata : (fs.data ino).drop pos = items.flatten ++ tail) (hok : .error ∉ answers)
    (hp : items.flatten.length + cost ≤ productive answers) :
    ∃ gs, inRow call (items.length + 1) ⟨ino, pos⟩ answers = some gs ∧
      gs.map (fun g => (g.ret, g.buf)) =
        items.map (fun item => (.ok item.length, frame item)) ++ [(last, left)] := by
  induction items generalizing pos answers with
  | nil =>
      obtain ⟨fd, rest, hrun⟩ := hlast pos answers (by simpa using hdata) hok (by simpa using hp)
      refine ⟨[⟨last, left, fd, rest⟩], ?_, rfl⟩
      simp [inRow, hrun]
  | cons item items ih =>
      simp only [List.flatten_cons, List.append_assoc, List.length_append] at hdata hp
      obtain ⟨rest, hrun, hrest, hcount⟩ :=
        hcall item (by simp) (items.flatten ++ tail) pos answers hdata hok (by omega)
      have hnext : (fs.data ino).drop (pos + item.length) = items.flatten ++ tail := by
        rw [← List.drop_drop, hdata, List.drop_left]
      obtain ⟨gs, hgs, hmap⟩ := ih (fun x hx => hcall x (List.mem_cons_of_mem _ hx)) hnext hrest
        (by omega)
      refine ⟨⟨.ok item.length, frame item, ⟨ino, pos + item.length⟩, rest⟩ :: gs, ?_, ?_⟩
      · rw [List.length_cons, inRow, hrun, Option.bind_some, hgs]
        rfl
      · rw [List.map_cons, hmap]
        rfl

/-- `readblock` returns the blocks of a file one for one, whatever the kernel gives it at a time:
then 0 at the end of the file, or -1 for a last piece shorter than a block. -/
theorem readblock_blocks (fs : Fs) (ino : Ino) (pos : Nat) (blocks : List (List UInt8))
    (tail : List UInt8) (size : Nat) (answers : List Answer)
    (hblocks : ∀ block ∈ blocks, block.length = size) (htail : tail.length < size)
    (hdata : (fs.data ino).drop pos = blocks.flatten ++ tail) (hok : .error ∉ answers)
    (hp : blocks.flatten.length + tail.length < productive answers) :
    ∃ gs, inRow (fun fd answers => readblock fs fd size answers) (blocks.length + 1) ⟨ino, pos⟩
        answers = some gs ∧
      gs.map (fun g => (g.ret, g.buf)) = blocks.map (fun block => (.ok size, block)) ++
        [(if tail = [] then .ok 0 else .error .einval, tail)] := by
  have hmap : blocks.map (fun block => ((.ok size : Except Errno Nat), block)) =
      blocks.map (fun block => (.ok block.length, block)) :=
    List.map_congr_left fun block hb => by rw [hblocks block hb]
  rw [hmap]
  refine inRow_items (fun block => block) (tail.length + 1) ?_ ?_ hdata hok (by omega)
  · intro item hitem more pos answers hrem hok hp
    have hlen := hblocks item hitem
    obtain ⟨rest, hrun, hrest, hcount⟩ := readblockLoop_reads fs ⟨ino, pos⟩
      size [] hok
      (by
        rw [hrem, List.length_append]
        omega)
      (by omega)
    refine ⟨rest, ?_, hrest, by omega⟩
    rw [readblock, hrun, hrem, List.take_left' hlen, hlen]
    simp
  · intro pos answers hrem hok hp
    obtain ⟨rest, hrun⟩ := readblockLoop_short fs ⟨ino, pos⟩ size [] hok
      (by
        rw [hrem]
        exact htail)
      (by
        rw [hrem]
        omega)
    refine ⟨⟨ino, pos + tail.length⟩, rest, ?_⟩
    rw [readblock, hrun]
    simp [hrem]

/-- Two blocks and a byte, with an interruption and a short read. -/
theorem readblock_blocks_torn : ∃ gs,
    inRow (fun fd answers => readblock (twoFiles [1, 2, 3, 4, 5] []) fd 2 answers) 3 ⟨0, 0⟩
      [.done 1, .eintr, .done 9, .done 2, .done 1, .done 1, .done 1] = some gs ∧
    gs.map (fun g => (g.ret, g.buf)) = [[1, 2], [3, 4]].map (fun block => (.ok 2, block)) ++
      [(if [(5 : UInt8)] = [] then .ok 0 else .error .einval, [5])] :=
  readblock_blocks _ 0 0 [[1, 2], [3, 4]] [5] 2 _ (by simp) (by simp) (by simp [twoFiles]) (by simp)
    (by simp [productive])

/-- `readline` returns the lines of a file one for one: then 0 at the end of the file, or -1 where
no newline comes in time. -/
theorem readline_lines (fs : Fs) (ino : Ino) (pos : Nat) (lines : List (List UInt8))
    (tail : List UInt8) (nbytes : Nat) (answers : List Answer) (hroom : 1 < nbytes)
    (hlines : ∀ line ∈ lines, ∃ pre, line = pre ++ [10] ∧ 10 ∉ pre ∧ line.length ≤ nbytes - 1)
    (htail : 10 ∉ tail.take (nbytes - 1))
    (hdata : (fs.data ino).drop pos = lines.flatten ++ tail) (hok : .error ∉ answers)
    (hp : lines.flatten.length + tail.length < productive answers) :
    ∃ gs, inRow (fun fd answers => readline fs fd nbytes answers) (lines.length + 1) ⟨ino, pos⟩
        answers = some gs ∧
      gs.map (fun g => (g.ret, g.buf)) = lines.map (fun line => (.ok line.length, line ++ [0])) ++
        [(if tail = [] then .ok 0 else .error .einval, tail.take (nbytes - 1))] := by
  refine inRow_items (fun line => line ++ [0]) (tail.length + 1) ?_ ?_ hdata hok (by omega)
  · intro line hline more pos answers hrem hok hp
    obtain ⟨pre, rfl, hpre, hlen⟩ := hlines line hline
    simp only [List.length_append, List.length_singleton] at hlen hp ⊢
    obtain ⟨rest, hrun, hrest, hcount⟩ := readlineLoop_reads fs ⟨ino, pos⟩
      nbytes [] pre hok (by simpa using hrem) hpre
      (by
        simp only [List.length_nil]
        omega)
      hp
    refine ⟨rest, ?_, hrest, by omega⟩
    rw [readline, hrun]
    simp
  · intro pos answers hrem hok hp
    obtain ⟨rest, hrun⟩ := readlineLoop_short fs ⟨ino, pos⟩ nbytes []
      (nbytes - 1) hok
      (by
        simp only [List.length_nil]
        omega)
      (by
        rw [hrem]
        exact htail)
      (by
        rw [hrem, List.length_take]
        omega)
    refine ⟨⟨ino, pos + (tail.take (nbytes - 1)).length⟩, rest, ?_⟩
    have hpos : 0 < nbytes - 1 := by omega
    rw [readline, hrun]
    simp [hrem, hpos]

/-- Two lines, of which the first fills the buffer, and a third that does not fit. -/
theorem readline_lines_long : ∃ gs,
    inRow (fun fd answers => readline (twoFiles [65, 66, 10, 10, 67, 68, 69, 10] []) fd (4 : Nat)
        answers) 3 ⟨0, 0⟩ ([.eintr] ++ List.replicate 9 (.done 1)) = some gs ∧
    gs.map (fun g => (g.ret, g.buf)) =
      [[65, 66, 10], [10]].map (fun line => (.ok line.length, line ++ [0])) ++
        [(if [67, 68, 69, (10 : UInt8)] = [] then .ok 0 else .error .einval,
          [67, 68, 69, 10].take (4 - 1))] :=
  readline_lines _ 0 0 [[65, 66, 10], [10]] [67, 68, 69, 10] 4 _ (by decide)
    (by
      intro line hline
      rcases List.mem_cons.mp hline with rfl | hline
      · exact ⟨[65, 66], rfl, by decide, by decide⟩
      · rw [List.mem_singleton.mp hline]
        exact ⟨[], rfl, by decide, by decide⟩)
    (by decide) (by simp [twoFiles]) (by decide) (by decide)

/-! ## Copying block by block -/

def readwriteblock (c : Copying) (size : Nat) : Option (Except Errno Nat × Copying) :=
  (readblock c.fs c.fromfd size c.answers).bind fun g =>
    match g.ret with
    | .ok bytesread =>
        if bytesread = size then
          (rWrite c.fs c.tofd g.buf g.answers).map fun (written, fs, tofd, answers) =>
            match written with
            | none => (.error .call, ⟨fs, g.fd, tofd, answers⟩)
            | some total => (.ok total, ⟨fs, g.fd, tofd, answers⟩)
        else some (.ok bytesread, { c with fromfd := g.fd, answers := g.answers })
    | .error e => some (.error e, { c with fromfd := g.fd, answers := g.answers })

theorem readblockLoop_cases {g : Got} (h : readblockLoop fs fd n buf answers = some g) :
    g.answers <:+ answers ∧ ∃ k, g.buf = buf ++ ((fs.data fd.ino).drop fd.pos).take k ∧
      (g.ret = .ok (buf.length + n) ∧ k = n ∧ n ≤ ((fs.data fd.ino).drop fd.pos).length ∨
        g.ret = .ok 0 ∧ buf = [] ∧ (fs.data fd.ino).drop fd.pos = [] ∧ 0 < n ∨
        g.ret = .error .einval ∧ ((fs.data fd.ino).drop fd.pos).length < n ∨
        g.ret = .error .call ∧ .error ∈ answers) := by
  induction answers generalizing fd n buf with
  | nil =>
      cases n with
      | zero =>
          cases h
          exact ⟨List.suffix_refl _, 0, by simp, .inl ⟨rfl, rfl, Nat.zero_le _⟩⟩
      | succ n => cases h
  | cons a as ih =>
      have hsuffix : as <:+ a :: as := List.suffix_cons _ _
      cases n with
      | zero =>
          cases h
          exact ⟨List.suffix_refl _, 0, by simp, .inl ⟨rfl, rfl, Nat.zero_le _⟩⟩
      | succ n =>
          cases a with
          | eintr =>
              obtain ⟨hrest, k, hbuf, hcase⟩ := ih (n := n + 1) h
              refine ⟨hrest.trans hsuffix, k, hbuf, ?_⟩
              exact hcase.imp id (Or.imp id (Or.imp id fun herr =>
                ⟨herr.1, List.mem_cons_of_mem _ herr.2⟩))
          | error =>
              cases h
              exact ⟨hsuffix, 0, by simp, .inr (.inr (.inr ⟨rfl, by simp⟩))⟩
          | done m =>
              generalize hleft : (fs.data fd.ino).drop fd.pos = left
              have hread : sysRead fs fd (n + 1) (.done m) =
                  (some (left.take (min (n + 1) (max m 1))),
                    { fd with pos := fd.pos + (left.take (min (n + 1) (max m 1))).length }) := by
                simp only [sysRead, hleft]
              rw [readblockLoop, hread] at h
              generalize hbytes : left.take (min (n + 1) (max m 1)) = bytes at h
              have hblen : bytes.length = min (min (n + 1) (max m 1)) left.length := by
                rw [← hbytes, List.length_take]
              cases bytes with
              | nil =>
                  have hempty : left = [] := by
                    rw [List.length_nil] at hblen
                    exact List.length_eq_zero_iff.mp (by omega)
                  subst hempty
                  simp only at h
                  split at h
                  · rename_i hbuf
                    cases h
                    exact ⟨hsuffix, 0, by simp, .inr (.inl ⟨rfl, hbuf, rfl, Nat.succ_pos _⟩)⟩
                  · cases h
                    exact ⟨hsuffix, 0, by simp, .inr (.inr (.inl ⟨rfl, Nat.succ_pos _⟩))⟩
              | cons b bs =>
                  obtain ⟨hrest, k, hbuf, hcase⟩ := ih h
                  have hdrop : (fs.data fd.ino).drop (fd.pos + (b :: bs).length) =
                      left.drop (b :: bs).length := by
                    rw [← List.drop_drop, hleft]
                  have htake : left.take (b :: bs).length = b :: bs := by
                    rw [hblen, ← List.take_eq_take_min, hbytes]
                  rw [hdrop, List.length_drop] at hcase
                  simp only [hdrop] at hbuf
                  refine ⟨hrest.trans hsuffix, (b :: bs).length + k, ?_, ?_⟩
                  · rw [hbuf, List.take_add, htake, List.append_assoc]
                  · rcases hcase with ⟨hret, hk, hle⟩ | ⟨-, hnil, -⟩ | ⟨hret, hlt⟩ | ⟨hret, herr⟩
                    · refine .inl ⟨?_, by omega, by omega⟩
                      rw [hret, List.length_append]
                      congr 1
                      omega
                    · simp at hnil
                    · exact .inr (.inr (.inl ⟨hret, by omega⟩))
                    · exact .inr (.inr (.inr ⟨hret, List.mem_cons_of_mem _ herr⟩))

/-- `readwriteblock` copies a whole block and returns its size, or finds the end of the file and
returns 0, or returns -1; part of a block is written only where a call fails. -/
theorem readwriteblock_whole {c c' : Copying} {ret : Except Errno Nat} (left : List UInt8)
    (hleft : left = (c.fs.data c.fromfd.ino).drop c.fromfd.pos)
    (h : readwriteblock c size = some (ret, c')) :
    ret = .ok size ∧ size ≤ left.length ∧
        c'.fs = c.fs.write c.tofd.ino c.tofd.pos (left.take size) ∨
      ret = .ok 0 ∧ left = [] ∧ c'.fs = c.fs ∨
      ret = .error .einval ∧ left.length < size ∧ c'.fs = c.fs ∨
      ret = .error .call ∧ .error ∈ c.answers ∧ (c'.fs = c.fs ∨ size ≤ left.length ∧
        ∃ n < size, c'.fs = c.fs.write c.tofd.ino c.tofd.pos (left.take n)) := by
  subst hleft
  obtain ⟨g, hg, h⟩ := Option.bind_eq_some_iff.mp h
  obtain ⟨hrest, k, hbuf, hcase⟩ := readblockLoop_cases hg
  rw [List.nil_append] at hbuf
  rcases hcase with ⟨hret, rfl, hle⟩ | ⟨hret, -, hempty, hpos⟩ | ⟨hret, hlt⟩ | ⟨hret, herr⟩
  · have hret' : g.ret = .ok k := by simpa using hret
    simp only [hret', if_true] at h
    obtain ⟨⟨written, fs', tofd', rest⟩, hwrite, hend⟩ := Option.map_eq_some_iff.mp h
    obtain ⟨w, hw, rfl, -, -, hdone⟩ := rWriteLoop_spec hwrite
    have hlen : g.buf.length = k := by rw [hbuf, List.length_take_of_le hle]
    rcases hdone with ⟨rfl, rfl⟩ | ⟨rfl, hlt, herr⟩
    · cases hend
      refine .inl ⟨by simp [hlen], hle, ?_⟩
      rw [List.take_length, hbuf]
    · cases hend
      refine .inr (.inr (.inr ⟨rfl, hrest.mem herr, .inr ⟨hle, w, by omega, ?_⟩⟩))
      have hmin : min w k = w := by omega
      rw [hbuf, List.take_take, hmin]
  · have hne : (0 : Nat) ≠ size := by omega
    simp only [hret, hne, if_false] at h
    cases h
    exact .inr (.inl ⟨rfl, hempty, rfl⟩)
  · simp only [hret] at h
    cases h
    exact .inr (.inr (.inl ⟨rfl, hlt, rfl⟩))
  · simp only [hret] at h
    cases h
    exact .inr (.inr (.inr ⟨rfl, herr, .inl rfl⟩))

/-- A block of two bytes whose write fails after the first. -/
theorem readwriteblock_half : ∃ c', readwriteblock
      ⟨twoFiles [1, 2, 3] [9, 9], ⟨0, 0⟩, ⟨1, 0⟩, [.done 1, .done 1, .done 1, .error]⟩ 2 =
        some (.error .call, c') ∧ c'.fs.data 1 = [1, 9] ∧
    (c'.fs = twoFiles [1, 2, 3] [9, 9] ∨ 2 ≤ 3 ∧
      ∃ n < 2, c'.fs = (twoFiles [1, 2, 3] [9, 9]).write 1 0 ([1, 2, 3].take n)) := by
  obtain ⟨⟨ret, c'⟩, h, hend⟩ := Option.map_eq_some_iff.mp (show (readwriteblock
      ⟨twoFiles [1, 2, 3] [9, 9], ⟨0, 0⟩, ⟨1, 0⟩, [.done 1, .done 1, .done 1, .error]⟩ 2).map
      (fun out => (out.1, out.2.fs.data 1)) = some (.error .call, [1, 9]) by decide)
  obtain ⟨hret, hdata⟩ := Prod.mk.inj hend
  have hret' : ret = .error .call := hret
  subst hret'
  rcases readwriteblock_whole [1, 2, 3] rfl h with
    ⟨hr, -⟩ | ⟨hr, -⟩ | ⟨hr, -⟩ | ⟨-, -, hfs⟩
  · cases hr
  · cases hr
  · cases hr
  · exact ⟨c', h, hdata, hfs⟩

end KernelTrg.FileIo
