import KernelTrg.Books.Memory

/-!
# Concurrent calls, step by step

Any number of calls run interleaved. A frame is one call: which function, where in
it, and since when it has been in a read-side critical section. One step is one
access to shared memory or one lock, allocation or reclamation action of the
source; an `rculist` update under `books_lock` is one step, since a lock-free
traversal sees a single one of its stores (the forward link that publishes it).
An object handed to reclamation at some time may be freed once every read-side
critical section that began before that time has ended.
-/

namespace KernelTrg.Books

open LinkRing

/-- The calls of the module; `updateBook` is `borrow_book` or `return_book`. -/
inductive Op where
  | addBook (id : Int) (name author : List UInt8)
  | updateBook (u : Update) (id : Int) (async : Bool)
  | deleteBook (id : Int) (async : Bool)
  | isBorrowedBook (id : Int)
  | printBook (id : Int)
deriving DecidableEq, Repr

namespace Op

abbrev borrowBook (id : Int) (async : Bool) : Op := .updateBook .borrow id async

abbrev returnBook (id : Int) (async : Bool) : Op := .updateBook .giveBack id async

def id : Op → Int
  | .addBook id _ _ | .updateBook _ id _ | .deleteBook id _ | .isBorrowedBook id
  | .printBook id => id

/-- The `async` argument; the functions without one never reclaim. -/
def async : Op → Bool
  | .updateBook _ _ async | .deleteBook _ async => async
  | _ => false

/-- `delete_book` searches under `books_lock`, the others inside `rcu_read_lock`. -/
def deletes : Op → Bool
  | .deleteBook .. => true
  | _ => false

def updates : Op → Bool
  | .updateBook .. => true
  | _ => false

def adds : Op → Bool
  | .addBook .. => true
  | _ => false

/-- The return value when the book is absent or the call gives up; `none` for `void`. -/
def failure : Op → Option Int
  | .updateBook .. | .isBorrowedBook _ => some (-1)
  | _ => none

/-- The return value after the old object is reclaimed. -/
def success : Op → Option Int
  | .updateBook .. => some 0
  | _ => none

end Op

/-- The next step of a call. `b` is the book the call is at, `newB` its copy. -/
inductive Pc where
  /-- nothing done yet: `kzalloc`, `spin_lock` or `rcu_read_lock` comes next -/
  | start
  /-- load `books.next` -/
  | first
  /-- the loop test on the cursor, and the load of `b->id` -/
  | walk (p : Ptr Addr)
  /-- load `b->node.next` -/
  | next (b : Addr)
  /-- an updater loads `b->borrow` -/
  | test (b : Addr)
  /-- an updater has `old_b`: `kzalloc` -/
  | alloc (b : Addr)
  /-- `memcpy` and the store of the new flag -/
  | copy (b newB : Addr)
  /-- `spin_lock` -/
  | lock (b newB : Addr)
  /-- `list_replace_rcu` -/
  | replace (b newB : Addr)
  /-- `list_del_rcu` -/
  | del (b : Addr)
  /-- `spin_unlock` after `b` was taken off the list -/
  | unlock (b : Addr)
  /-- an updater's `rcu_read_unlock` after the replacement -/
  | leave (b : Addr)
  /-- `call_rcu`, or the beginning of `synchronize_rcu` -/
  | reclaim (b : Addr)
  /-- inside the `synchronize_rcu` that began at `since` -/
  | sync (b : Addr) (since : Nat)
  /-- `kfree(b)` -/
  | free (b : Addr)
  /-- `add_book` fills the new object -/
  | init (b : Addr)
  /-- `add_book`: `spin_lock` -/
  | addLock (b : Addr)
  /-- `list_add_rcu` -/
  | addLink (b : Addr)
  /-- `add_book`: `spin_unlock` and return -/
  | addUnlock
  /-- `is_borrowed_book` found `b`: `rcu_read_unlock` -/
  | found (b : Addr)
  /-- `is_borrowed_book`, after the unlock: `return b->borrow` -/
  | late (b : Addr)
  /-- `print_book` loads every field of `b` -/
  | print (b : Addr)
  /-- `rcu_read_unlock` (`spin_unlock` in `delete_book`), then `return` -/
  | exit
  | done (r : Option Int)
  /-- the kernel stopped the call on a wild pointer -/
  | oops
deriving DecidableEq, Repr

/-- One call in flight; `since` is when its open read-side critical section began. -/
structure Frame where
  op : Op
  pc : Pc
  since : Option Nat
deriving DecidableEq, Repr

def Frame.new (op : Op) : Frame := ⟨op, .start, none⟩

/-- What happened to the catalogue and to retired objects. `entry` names the book a
replaced object stands for by the object `add_book` made for it. -/
inductive Event where
  | replaced (c : Nat) (u : Update) (entry old : Addr)
  | deleted (c : Nat) (b : Addr)
  | retired (c : Nat) (b : Addr)
deriving DecidableEq, Repr

/-- `callbacks` are the objects given to `call_rcu` with the time of the call; `clock`
counts steps. `entry` and `hist` (newest first) record, and no step reads them for control. -/
structure Sys where
  mem : Mem
  lock : Option Nat
  frames : List Frame
  callbacks : List (Addr × Nat)
  clock : Nat
  entry : Addr → Addr
  hist : List Event

/-- Whether a store through `LIST_POISON2` faults, as it does where no memory is mapped there. -/
structure Config where
  poisonFaults : Bool
deriving DecidableEq, Repr

namespace Sys

/-- The module with list `m` and the given calls about to begin. -/
def boot (m : Mem) (ops : List Op) : Sys where
  mem := m
  lock := none
  frames := ops.map Frame.new
  callbacks := []
  clock := 0
  entry := id
  hist := []

def goto (s : Sys) (c : Nat) (f : Frame) (pc : Pc) : Sys :=
  { s with frames := s.frames.set c { f with pc := pc } }

/-- Every read-side critical section that began before `t` has ended. -/
def graceOver (s : Sys) (t : Nat) : Bool :=
  s.frames.all fun f => match f.since with
    | none => true
    | some r => t ≤ r

/-- `list_replace_rcu` on a poisoned node: the copy has its links when the store faults. -/
def replaceFault (m : Mem) (b newB : Addr) : Mem :=
  { m with
    links := (m.links.setNext (.node newB) (m.links.next (.node b))).setPrev (.node newB)
      (m.links.prev (.node b)) }

/-- `list_del_rcu` on a poisoned node: the next node has its link when the store faults. -/
def delFault (m : Mem) (b : Addr) : Mem :=
  { m with links := m.links.setPrev (m.links.next (.node b)) (m.links.prev (.node b)) }

/-- The step after the search met a book with the id. -/
def hit (op : Op) (b : Addr) : Pc :=
  match op with
  | .updateBook .. => .test b
  | .deleteBook .. => .del b
  | .isBorrowedBook _ => .found b
  | .printBook _ => .print b
  | .addBook .. => .oops

/-- The step of frame `f`, number `c`; `alloc` is whether a `kzalloc` in it succeeds.
`none` when the call is over or has to wait. -/
def frameStep (cfg : Config) (s : Sys) (c : Nat) (f : Frame) (alloc : Bool) : Option Sys :=
  match f.pc with
  | .start =>
      match f.op with
      | .addBook .. =>
          if alloc then some ({ s with mem := s.mem.kzalloc }.goto c f (.init s.mem.brk))
          else some (s.goto c f (.done none))
      | .deleteBook .. =>
          if s.lock = none then some ({ s with lock := some c }.goto c f .first) else none
      | _ => some (s.goto c { f with since := some s.clock } .first)
  | .first => some (s.goto c f (.walk (s.mem.links.next .head)))
  | .walk .head => some (s.goto c f .exit)
  | .walk (.node b) =>
      if (s.mem.book b).id = f.op.id then some (s.goto c f (hit f.op b))
      else some (s.goto c f (.next b))
  | .walk _ => some (s.goto c { f with since := none } .oops)
  | .next b => some (s.goto c f (.walk (s.mem.links.next (.node b))))
  | .test b =>
      match f.op with
      | .updateBook u .. =>
          if u.refuses (s.mem.book b).borrow then some (s.goto c f .exit)
          else some (s.goto c f (.alloc b))
      | _ => none
  | .alloc b =>
      if alloc then some ({ s with mem := s.mem.kzalloc }.goto c f (.copy b s.mem.brk))
      else some (s.goto c f .exit)
  | .copy b newB =>
      match f.op with
      | .updateBook u .. =>
          some ({ s with mem := (s.mem.memcpy newB b).setBorrow newB u.flag }.goto c f
            (.lock b newB))
      | _ => none
  | .lock b newB =>
      if s.lock = none then some ({ s with lock := some c }.goto c f (.replace b newB)) else none
  | .replace b newB =>
      match f.op with
      | .updateBook u .. =>
          if cfg.poisonFaults ∧ s.mem.links.prev (.node b) = .poison then
            some ({ s with mem := replaceFault s.mem b newB }.goto c { f with since := none } .oops)
          else
            some ({ s with
              mem := s.mem.listReplaceRcu b newB
              entry := Function.update s.entry newB (s.entry b)
              hist := .replaced c u (s.entry b) b :: s.hist }.goto c f (.unlock b))
      | _ => none
  | .del b =>
      if cfg.poisonFaults ∧ s.mem.links.prev (.node b) = .poison then
        some ({ s with mem := delFault s.mem b }.goto c f .oops)
      else
        some ({ s with mem := s.mem.listDelRcu b, hist := .deleted c b :: s.hist }.goto c f
          (.unlock b))
  | .unlock b =>
      some ({ s with lock := none }.goto c f (if f.op.deletes then .reclaim b else .leave b))
  | .leave b => some (s.goto c { f with since := none } (.reclaim b))
  | .reclaim b =>
      if f.op.async then
        some ({ s with
          callbacks := s.callbacks ++ [(b, s.clock)]
          hist := .retired c b :: s.hist }.goto c f (.done f.op.success))
      else some (s.goto c f (.sync b s.clock))
  | .sync b t => if s.graceOver t then some (s.goto c f (.free b)) else none
  | .free b =>
      some ({ s with mem := s.mem.kfree b, hist := .retired c b :: s.hist }.goto c f
        (.done f.op.success))
  | .init b =>
      match f.op with
      | .addBook id name author =>
          some ({ s with
            mem := s.mem.setBook b ⟨id, strncpy nameSize name, strncpy nameSize author, 0⟩ }.goto
              c f (.addLock b))
      | _ => none
  | .addLock b =>
      if s.lock = none then some ({ s with lock := some c }.goto c f (.addLink b)) else none
  | .addLink b => some ({ s with mem := s.mem.listAddRcu b }.goto c f .addUnlock)
  | .addUnlock => some ({ s with lock := none }.goto c f (.done none))
  | .found b => some (s.goto c { f with since := none } (.late b))
  | .late b => some (s.goto c f (.done (some (s.mem.book b).borrow)))
  | .print _ => some (s.goto c f .exit)
  | .exit =>
      if f.op.deletes then some ({ s with lock := none }.goto c f (.done f.op.failure))
      else some (s.goto c { f with since := none } (.done f.op.failure))
  | .done _ | .oops => none

end Sys

/-- A new call begins, a call takes its next step, or the callback of the `i`-th object given
to `call_rcu` runs. -/
inductive Action where
  | call (op : Op)
  | run (c : Nat) (alloc : Bool)
  | callback (i : Nat)
deriving DecidableEq, Repr

namespace Sys

/-- `book_reclaim_callback` for the `i`-th pending object, once its grace period is over. -/
def bookReclaimCallback (s : Sys) (i : Nat) : Option Sys :=
  match s.callbacks[i]? with
  | some (b, t) =>
      if s.graceOver t then
        some { s with mem := s.mem.kfree b, callbacks := s.callbacks.eraseIdx i }
      else none
  | none => none

def act (cfg : Config) (s : Sys) : Action → Option Sys
  | .call op => some { s with frames := s.frames ++ [Frame.new op] }
  | .run c alloc =>
      match s.frames[c]? with
      | some f => s.frameStep cfg c f alloc
      | none => none
  | .callback i => s.bookReclaimCallback i

def tick (s : Sys) : Sys := { s with clock := s.clock + 1 }

def stepping (s : Sys) : Action → Option Frame
  | .run c _ => s.frames[c]?
  | _ => none

def step (cfg : Config) (s : Sys) (a : Action) : Option Sys := (s.act cfg a).map tick

end Sys

end KernelTrg.Books
