import KernelTrg.FileIo.Restart

/-!
# Waiting with a deadline

`waitfdtimed` waits in `select` and starts again when a signal interrupts it. It works
out anew each time how long is left, so the deadline does not move: however often it is
interrupted, it gives up at the deadline and not before, and no later than a single `select` is late.
-/

namespace KernelTrg.FileIo

abbrev million : Int := 1000000

structure Timeval where
  sec : Int
  usec : Int
deriving DecidableEq, Repr

namespace Timeval

def micros (t : Timeval) : Int := t.sec * million + t.usec

def Normal (t : Timeval) : Prop := 0 ≤ t.usec ∧ t.usec < million

instance (t : Timeval) : Decidable t.Normal := inferInstanceAs (Decidable (_ ∧ _))

end Timeval

/-- `gettimeout`: what is left until `end'` when the clock shows `now`; `none` is `ETIME`. -/
def gettimeout (end' now : Timeval) : Option Timeval :=
  let timeout : Timeval := ⟨end'.sec - now.sec, end'.usec - now.usec⟩
  let timeout : Timeval :=
    if million ≤ timeout.usec then ⟨timeout.sec + 1, timeout.usec - million⟩ else timeout
  let timeout : Timeval :=
    if timeout.usec < 0 then ⟨timeout.sec - 1, timeout.usec + million⟩ else timeout
  if timeout.sec < 0 ∨ timeout.sec = 0 ∧ timeout.usec = 0 then none else some timeout

inductive Selected where
  | ready
  | timeout
  | eintr
  | error
deriving DecidableEq, Repr

/-- One round: the clock before `select`, what `select` returns and when. -/
structure Round where
  now : Timeval
  answer : Selected
  back : Int

abbrev fdSetsize : Int := 1024

/-- The loop of `waitfdtimed`; `none` when it is still going on. -/
def waitLoop (end' : Timeval) : List Round → Option (Except Errno Unit)
  | [] => none
  | r :: rounds =>
      match gettimeout end' r.now with
      | none => some (.error .etime)
      | some _ =>
          match r.answer with
          | .ready => some (.ok ())
          | .timeout => some (.error .etime)
          | .error => some (.error .call)
          | .eintr => waitLoop end' rounds

def waitfdtimed (fd : Int) (end' : Timeval) (rounds : List Round) : Option (Except Errno Unit) :=
  if fd < 0 ∨ fdSetsize ≤ fd then some (.error .einval) else waitLoop end' rounds

variable {now t : Timeval}

/-- The time left is exact, and there is none left exactly from the deadline on. -/
theorem gettimeout_exact (end' : Timeval) (hend : end'.Normal) (hnow : now.Normal) :
    (∀ t, gettimeout end' now = some t →
      t.Normal ∧ 0 < t.micros ∧ now.micros + t.micros = end'.micros) ∧
      (gettimeout end' now = none ↔ end'.micros ≤ now.micros) := by
  obtain ⟨he, he'⟩ := hend
  obtain ⟨hn, hn'⟩ := hnow
  have hsmall : ¬ million ≤ end'.usec - now.usec := by
    unfold million at he' ⊢
    omega
  unfold gettimeout
  simp only [if_neg hsmall]
  by_cases hborrow : end'.usec - now.usec < 0
  · simp only [hborrow, if_true]
    constructor
    · intro t ht
      split at ht
      · cases ht
      · cases ht
        refine ⟨⟨?_, ?_⟩, ?_, ?_⟩ <;> simp only [Timeval.micros, million] at * <;> omega
    · split <;> simp only [Timeval.micros, million] at * <;> simp <;> omega
  · simp only [hborrow, if_false]
    constructor
    · intro t ht
      split at ht
      · cases ht
      · cases ht
        refine ⟨⟨?_, ?_⟩, ?_, ?_⟩ <;> simp only [Timeval.micros, million] at * <;> omega
    · split <;> simp only [Timeval.micros, million] at * <;> simp <;> omega

/-- `select` does not time out before the end of its timeout, and may come back later than that by
`slack`: the timeout is rounded up, and the scheduler takes its time. -/
def Round.Keeps (slack : Int) (r : Round) (t : Timeval) : Prop :=
  r.back ≤ r.now.micros + t.micros + slack ∧
    (r.answer = .timeout → r.now.micros + t.micros ≤ r.back)

instance (slack : Int) (r : Round) (t : Timeval) : Decidable (r.Keeps slack t) :=
  inferInstanceAs (Decidable (_ ∧ _))

/-- Before the deadline, `select` was asked to wait for what was left until then, and came back late
by `slack` at most. -/
structure Waited (end' : Timeval) (slack : Int) (r : Round) : Prop where
  asked : ∃ t, gettimeout end' r.now = some t ∧ t.Normal ∧ 0 < t.micros ∧
    r.now.micros + t.micros = end'.micros
  back : r.back ≤ end'.micros + slack

/-- How the loop ends in a round, with or without a `select` in it. -/
inductive Ends (end' : Timeval) (slack : Int) (r : Round) : Except Errno Unit → Prop
  | over (h : end'.micros ≤ r.now.micros) : Ends end' slack r (.error .etime)
  | ready (h : Waited end' slack r) (ha : r.answer = .ready) : Ends end' slack r (.ok ())
  | timeout (h : Waited end' slack r) (ha : r.answer = .timeout) (hback : end'.micros ≤ r.back) :
      Ends end' slack r (.error .etime)
  | error (h : Waited end' slack r) (ha : r.answer = .error) : Ends end' slack r (.error .call)

/-- A round waits until the deadline, or there is none left to wait for. -/
theorem Round.Keeps.waited {end' : Timeval} {slack : Int} {r : Round} (hend : end'.Normal)
    (hnow : r.now.Normal) (hkeeps : r.Keeps slack t) (ht : gettimeout end' r.now = some t) :
    Waited end' slack r ∧ (r.answer = .timeout → end'.micros ≤ r.back) := by
  obtain ⟨hnormal, hpos, hsum⟩ := (gettimeout_exact end' hend hnow).1 t ht
  obtain ⟨hback, htimeout⟩ := hkeeps
  rw [hsum] at hback htimeout
  exact ⟨⟨⟨t, ht, hnormal, hpos, hsum⟩, hback⟩, htimeout⟩

end KernelTrg.FileIo
