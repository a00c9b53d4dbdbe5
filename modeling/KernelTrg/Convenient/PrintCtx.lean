import KernelTrg.Lib.Bytes
import KernelTrg.Lib.Runs

/-!
# The context that `PRINT_CTX` prints

A CPU enters and leaves preempt-disabled sections, softirqs and hardirqs, nested in each other,
and keeps one packed counter of them. The macro decodes the counter through the predicates of the
kernel's headers, which are a parameter here.
-/

namespace KernelTrg.Convenient

open Runs Bytes

/-- What is open on a CPU besides its task. -/
inductive Context where
  | preempt
  | softirq
  | hardirq
deriving DecidableEq, Repr

/-- What the kernel's headers give: the offsets of the counts above the preempt depth, and the
predicates on the counter. -/
structure Headers where
  softirqOffset : Nat
  hardirqOffset : Nat
  inTask : Nat → Bool
  inHardirq : Nat → Bool
  inServingSoftirq : Nat → Bool

/-- The counter at a preempt depth, with so many softirqs and hardirqs being served. -/
def Headers.packed (hd : Headers) (depth softirqs hardirqs : Nat) : Nat :=
  depth + hd.softirqOffset * softirqs + hd.hardirqOffset * hardirqs

/-- The preempt depth has the low 8 bits, the counts are above it, and the predicates tell them
apart as long as they fit. -/
structure Headers.Documented (hd : Headers) : Prop where
  softirq_above : 256 ≤ hd.softirqOffset
  hardirq_above : 256 ≤ hd.hardirqOffset
  inHardirq : ∀ {d s h}, d < 256 → s < 2 → h < 16 →
    hd.inHardirq (hd.packed d s h) = decide (0 < h)
  inServingSoftirq : ∀ {d s h}, d < 256 → s < 2 → h < 16 →
    hd.inServingSoftirq (hd.packed d s h) = decide (0 < s)
  inTask : ∀ {d s h}, d < 256 → s < 2 → h < 16 →
    hd.inTask (hd.packed d s h) = decide (s = 0 ∧ h = 0)

/-! ## What the kernel admits -/

/-- A CPU: what is open on it, innermost first, `preempt_count()`, `irqs_disabled()` and
`need_resched()`. -/
structure Cpu where
  opened : List Context
  preemptCount : Nat
  irqsDisabled : Bool
  needResched : Bool
deriving DecidableEq, Repr

def Cpu.start : Cpu := ⟨[], 0, false, false⟩

inductive Event where
  | enter (c : Context)
  | leave (c : Context)
  | irqs (disabled : Bool)
  | resched (needed : Bool)
deriving DecidableEq, Repr

/-- A softirq does not start inside another or inside a hardirq, a hardirq does not start with
interrupts disabled, and the counts stay in their fields. -/
def Cpu.Admits (s : Cpu) : Context → Prop
  | .preempt => s.opened.count .preempt < 255
  | .softirq => .softirq ∉ s.opened ∧ .hardirq ∉ s.opened
  | .hardirq => s.irqsDisabled = false ∧ s.opened.count .hardirq < 15

instance (s : Cpu) (c : Context) : Decidable (s.Admits c) := by
  cases c <;> unfold Cpu.Admits <;> infer_instance

def Headers.offset (hd : Headers) : Context → Nat
  | .preempt => 1
  | .softirq => hd.softirqOffset
  | .hardirq => hd.hardirqOffset

/-- A hardirq runs with interrupts disabled at first, and they are enabled again behind it. -/
def step (hd : Headers) (s : Cpu) : Event → Option Cpu
  | .enter c =>
      if s.Admits c then
        some { s with
          opened := c :: s.opened
          preemptCount := s.preemptCount + hd.offset c
          irqsDisabled := if c = .hardirq then true else s.irqsDisabled }
      else none
  | .leave c =>
      if s.opened.head? = some c then
        some { s with
          opened := s.opened.tail
          preemptCount := s.preemptCount - hd.offset c
          irqsDisabled := if c = .hardirq then false else s.irqsDisabled }
      else none
  | .irqs disabled => some { s with irqsDisabled := disabled }
  | .resched needed => some { s with needResched := needed }

/-! ## The macro -/

/-- What the line says about the task: the CPU it is on, `current` and `__func__`. -/
structure Task where
  cpu : Nat
  mm : Bool
  comm : List UInt8
  pid : Int
  func : List UInt8
deriving DecidableEq, Repr

structure Columns where
  irqsOff : UInt8
  needResched : UInt8
  intr : UInt8
  depth : Nat
deriving DecidableEq, Repr

/-- `"%03d) %c%s%c:%d   |  %c%c%c%u   /* %s() */\n"` -/
def ctxLine (t : Task) (c : Columns) : List UInt8 :=
  let bracket (b : UInt8) := if t.mm then 32 else b
  (decimal t.cpu).leftpad 3 48 ++ ascii ") " ++ bracket 91 :: t.comm ++ bracket 93 :: 58 ::
    signedDecimal t.pid ++ ascii "   |  " ++ c.irqsOff :: c.needResched :: c.intr ::
    (decimal c.depth ++ (ascii "   /* " ++ t.func ++ ascii "() */\n"))

/-- The text of `PRINT_CTX()`; its header line is switched off. -/
def printCtx (hd : Headers) (t : Task) (s : Cpu) : List UInt8 :=
  let intr :=
    if !hd.inTask s.preemptCount then
      if hd.inHardirq s.preemptCount && hd.inServingSoftirq s.preemptCount then 'H'.toUInt8
      else if hd.inHardirq s.preemptCount then 'h'.toUInt8
      else if hd.inServingSoftirq s.preemptCount then 's'.toUInt8
      else '.'.toUInt8
    else '.'.toUInt8
  ctxLine t
    { irqsOff := if s.irqsDisabled then 'd'.toUInt8 else '.'.toUInt8
      needResched := if s.needResched then 'N'.toUInt8 else '.'.toUInt8
      intr := intr
      -- `(preempt_count() && 0xff)`: a truth value
      depth := if s.preemptCount ≠ 0 ∧ 0xff ≠ 0 then 1 else 0 }

/-! ## The documented columns -/

def contextLetter : List Context → UInt8
  | [] => '.'.toUInt8
  | .preempt :: opened => contextLetter opened
  | .softirq :: _ => 's'.toUInt8
  | .hardirq :: opened => if .softirq ∈ opened then 'H'.toUInt8 else 'h'.toUInt8

def documented (s : Cpu) : Columns where
  irqsOff := if s.irqsDisabled then 'd'.toUInt8 else '.'.toUInt8
  needResched := if s.needResched then 'N'.toUInt8 else '.'.toUInt8
  intr := contextLetter s.opened
  depth := s.opened.count .preempt

def Nested : List Context → Prop
  | [] => True
  | .softirq :: opened => .softirq ∉ opened ∧ .hardirq ∉ opened ∧ Nested opened
  | _ :: opened => Nested opened

variable {hd : Headers} {s s' : Cpu} {e : Event} {es : List Event} {opened : List Context}
  {t : Task} {c : Context}

theorem Nested.tail (h : Nested (c :: opened)) : Nested opened := by
  cases c with
  | preempt => exact h
  | softirq => exact h.2.2
  | hardirq => exact h

theorem Nested.count_softirq (h : Nested opened) : opened.count .softirq < 2 := by
  induction opened with
  | nil => decide
  | cons c opened ih =>
      cases c with
      | softirq =>
          have hnone : opened.count .softirq = 0 := List.count_eq_zero.mpr h.1
          rw [List.count_cons_self, hnone]
          decide
      | preempt => simpa using ih h
      | hardirq => simpa using ih h

theorem Nested.contextLetter_eq (h : Nested opened) :
    contextLetter opened =
      if .hardirq ∈ opened then
        if .softirq ∈ opened then 'H'.toUInt8 else 'h'.toUInt8
      else if .softirq ∈ opened then 's'.toUInt8 else '.'.toUInt8 := by
  induction opened with
  | nil => rfl
  | cons c opened ih =>
      cases c with
      | preempt => simpa [contextLetter] using ih h
      | softirq => simp [contextLetter, h.2.1]
      | hardirq => simp [contextLetter]

/-- What every run keeps: the counter packs the counts of what is open. -/
structure Packed (hd : Headers) (s : Cpu) : Prop where
  nested : Nested s.opened
  depth : s.opened.count .preempt < 256
  hardirqs : s.opened.count .hardirq < 16
  count : s.preemptCount = hd.packed (s.opened.count .preempt) (s.opened.count .softirq)
    (s.opened.count .hardirq)

theorem packed_cons (hd : Headers) (c : Context) (opened : List Context) :
    hd.packed ((c :: opened).count .preempt) ((c :: opened).count .softirq)
        ((c :: opened).count .hardirq) =
      hd.packed (opened.count .preempt) (opened.count .softirq) (opened.count .hardirq) +
        hd.offset c := by
  cases c <;> simp [Headers.packed, Headers.offset, Nat.mul_add] <;> omega

theorem Packed.enter (h : Packed hd s) (hadmits : s.Admits c) :
    Packed hd { s with
      opened := c :: s.opened
      preemptCount := s.preemptCount + hd.offset c
      irqsDisabled := if c = .hardirq then true else s.irqsDisabled } where
  nested := by
    cases c with
    | preempt => exact h.nested
    | softirq => exact ⟨hadmits.1, hadmits.2, h.nested⟩
    | hardirq => exact h.nested
  depth := by
    have hdepth := h.depth
    cases c with
    | preempt =>
        have hroom : s.opened.count .preempt < 255 := hadmits
        rw [List.count_cons_self]
        omega
    | softirq => simpa using hdepth
    | hardirq => simpa using hdepth
  hardirqs := by
    have hhardirqs := h.hardirqs
    cases c with
    | hardirq =>
        have hroom : s.opened.count .hardirq < 15 := hadmits.2
        rw [List.count_cons_self]
        omega
    | preempt => simpa using hhardirqs
    | softirq => simpa using hhardirqs
  count := by
    rw [packed_cons, ← h.count]

theorem Packed.leave (h : Packed hd s) (htop : s.opened.head? = some c) :
    Packed hd { s with
      opened := s.opened.tail
      preemptCount := s.preemptCount - hd.offset c
      irqsDisabled := if c = .hardirq then false else s.irqsDisabled } := by
  have hcons : s.opened = c :: s.opened.tail := (List.cons_head?_tail htop).symm
  have hcount := h.count
  have hdepth := h.depth
  have hhardirqs := h.hardirqs
  have hnested := h.nested
  rw [hcons] at hcount hdepth hhardirqs hnested
  rw [packed_cons] at hcount
  constructor
  case nested => exact hnested.tail
  case depth => exact lt_of_le_of_lt (List.count_le_count_cons ..) hdepth
  case hardirqs => exact lt_of_le_of_lt (List.count_le_count_cons ..) hhardirqs
  case count =>
    rw [hcount]
    exact Nat.add_sub_cancel ..

theorem Packed.step (h : Packed hd s) (hstep : step hd s e = some s') : Packed hd s' := by
  cases e with
  | enter c =>
      simp only [Convenient.step, Option.ite_none_right_eq_some] at hstep
      rcases hstep with ⟨hadmits, heq⟩
      cases heq
      exact h.enter hadmits
  | leave c =>
      simp only [Convenient.step, Option.ite_none_right_eq_some] at hstep
      rcases hstep with ⟨htop, heq⟩
      cases heq
      exact h.leave htop
  | irqs disabled =>
      cases hstep
      exact ⟨h.nested, h.depth, h.hardirqs, h.count⟩
  | resched needed =>
      cases hstep
      exact ⟨h.nested, h.depth, h.hardirqs, h.count⟩

theorem Packed.start (hd : Headers) : Packed hd .start where
  nested := trivial
  depth := by decide
  hardirqs := by decide
  count := rfl

/-- In every state the kernel's events lead to, the counter packs what is open. -/
theorem Packed.run (hrun : exec (Convenient.step hd) .start es = some s) : Packed hd s :=
  exec_invariant (fun _ _ _ h _ hstep => h.step hstep) (Packed.start hd)
    (Along.of_mem (P := fun _ => True) (fun _ _ => trivial) _) hrun

/-! ## The line -/

theorem ctxLine_inj {a b : Columns} : ctxLine t a = ctxLine t b ↔ a = b := by
  constructor
  · intro h
    unfold ctxLine at h
    have hcolumns := List.append_cancel_left h
    simp only [List.cons.injEq, List.append_cancel_right_eq] at hcolumns
    have hdepth : a.depth = b.depth := decimal_inj hcolumns.2.2.2
    cases a
    cases b
    simp_all
  · intro h
    rw [h]

theorem Packed.preemptCount_eq_zero (h : Packed hd s) (hdoc : hd.Documented) :
    s.preemptCount = 0 ↔ s.opened = [] := by
  have hsoftirq := hdoc.softirq_above
  have hhardirq := hdoc.hardirq_above
  rw [h.count]
  constructor
  · intro hzero
    cases hopened : s.opened with
    | nil => rfl
    | cons c opened =>
        rw [hopened, packed_cons] at hzero
        cases c <;> simp only [Headers.offset] at hzero <;> omega
  · intro hnil
    rw [hnil]
    rfl

/-- The macro's line: the first three columns are right in every state, the depth is a truth
value. -/
theorem Packed.printCtx_eq (h : Packed hd s) (hdoc : hd.Documented) (t : Task) :
    printCtx hd t s =
      ctxLine t { documented s with depth := if s.opened = [] then 0 else 1 } := by
  have hdepth : (if s.preemptCount ≠ 0 ∧ 0xff ≠ 0 then 1 else 0) =
      if s.opened = [] then 0 else 1 := by
    simp [h.preemptCount_eq_zero hdoc]
  have hd256 := h.depth
  have hs2 := h.nested.count_softirq
  have hh16 := h.hardirqs
  have htask : hd.inTask s.preemptCount =
      decide (.softirq ∉ s.opened ∧ .hardirq ∉ s.opened) := by
    rw [h.count, hdoc.inTask hd256 hs2 hh16]
    simp only [List.count_eq_zero]
  have hinHardirq : hd.inHardirq s.preemptCount = decide (.hardirq ∈ s.opened) := by
    rw [h.count, hdoc.inHardirq hd256 hs2 hh16]
    simp only [List.count_pos_iff]
  have hserving : hd.inServingSoftirq s.preemptCount = decide (.softirq ∈ s.opened) := by
    rw [h.count, hdoc.inServingSoftirq hd256 hs2 hh16]
    simp only [List.count_pos_iff]
  unfold printCtx documented
  rw [h.nested.contextLetter_eq, hdepth, htask, hinHardirq, hserving]
  by_cases hhard : .hardirq ∈ s.opened <;> by_cases hsoft : .softirq ∈ s.opened <;>
    simp [hhard, hsoft]

/-- The line is the documented one exactly at preempt depth one and where nothing is open. -/
theorem printCtx_documented_iff (hdoc : hd.Documented)
    (hrun : exec (step hd) .start es = some s) :
    printCtx hd t s = ctxLine t (documented s) ↔
      s.opened.count .preempt = 1 ∨ s.opened = [] := by
  rw [(Packed.run hrun).printCtx_eq hdoc, ctxLine_inj]
  by_cases hnil : s.opened = []
  · simp [hnil, documented]
  · simp only [documented, hnil, if_false, or_false, Columns.mk.injEq, true_and]
    exact eq_comm

/-- The headers' layout: eight bits each for the preempt depth and the softirqs, then four for
the hardirqs. -/
def headers : Headers where
  softirqOffset := 0x100
  hardirqOffset := 0x10000
  inTask count := count / 0x10000 % 16 = 0 ∧ count / 0x100 % 2 = 0
  inHardirq count := count / 0x10000 % 16 ≠ 0
  inServingSoftirq count := count / 0x100 % 2 ≠ 0

theorem headers_documented : headers.Documented where
  softirq_above := by decide
  hardirq_above := by decide
  inHardirq := by
    intro d s h hd hs hh
    simp only [headers, Headers.packed, decide_eq_decide]
    omega
  inServingSoftirq := by
    intro d s h hd hs hh
    simp only [headers, Headers.packed, decide_eq_decide]
    omega
  inTask := by
    intro d s h hd hs hh
    simp only [headers, Headers.packed, decide_eq_decide]
    omega

def sampleTask : Task where
  cpu := 1
  mm := true
  comm := ascii "rdwr_drv_secret"
  pid := 4857
  func := ascii "read_miscdrv_rdwr"

/-- A hardirq inside a softirq that came in a preempt-disabled section. -/
theorem printCtx_documented_iff_nested :
    ∃ s, exec (step headers) .start [.enter .preempt, .enter .softirq, .enter .hardirq] = some s ∧
      printCtx headers sampleTask s = ctxLine sampleTask (documented s) := by
  have hrun : exec (step headers) .start [.enter .preempt, .enter .softirq, .enter .hardirq] =
      some ⟨[.hardirq, .softirq, .preempt], 0x10101, true, false⟩ := by decide
  exact ⟨_, hrun, (printCtx_documented_iff headers_documented hrun).mpr (by decide)⟩

/-- Two nested preempt-disabled sections are shown as one. -/
theorem printCtx_depth_two :
    ∃ s, exec (step headers) .start [.enter .preempt, .enter .preempt] = some s ∧
      printCtx headers sampleTask s ≠ ctxLine sampleTask (documented s) := by
  have hrun : exec (step headers) .start [.enter .preempt, .enter .preempt] =
      some ⟨[.preempt, .preempt], 2, false, false⟩ := by decide
  refine ⟨_, hrun, ?_⟩
  rw [(Packed.run hrun).printCtx_eq headers_documented, Ne, ctxLine_inj]
  decide

end KernelTrg.Convenient
