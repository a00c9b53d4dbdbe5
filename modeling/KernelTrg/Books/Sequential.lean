import KernelTrg.Books.Memory

/-!
# The catalogue operations, one call at a time

Each definition follows its C function from entry to return with nothing running
in between. `none` is a load or store the kernel must not make: through a freed or
never allocated object, or through the poison left in an unlinked node; a list walk
that visits more objects than were ever allocated counts as one too.
-/

namespace KernelTrg.Books

open LinkRing

/-- Memory plus the objects handed to `call_rcu` whose callback has not run, oldest first. -/
structure Module where
  mem : Mem
  callbacks : List Addr

def Module.init : Module := ⟨Mem.init, []⟩

/-- `list_for_each_entry(b, &books, node)` up to the first book with the id. -/
def findBook (m : Mem) (id : Int) : Nat → Ptr Addr → Option (Option Addr)
  | 0, _ => none
  | _ + 1, .head => some none
  | fuel + 1, .node b =>
      if m.Live b then
        if (m.book b).id = id then some (some b)
        else findBook m id fuel (m.links.next (.node b))
      else none
  | _ + 1, _ => none

def lookup (m : Mem) (id : Int) : Option (Option Addr) :=
  findBook m id (m.brk + 1) (m.links.next .head)

/-- `call_rcu(&b->rcu, book_reclaim_callback)`, or `synchronize_rcu(); kfree(b)`. -/
def reclaim (s : Module) (b : Addr) (async : Bool) : Module :=
  if async then { s with callbacks := s.callbacks ++ [b] } else { s with mem := s.mem.kfree b }

def bookReclaimCallback (s : Module) : Module :=
  match s.callbacks with
  | [] => s
  | b :: rest => { mem := s.mem.kfree b, callbacks := rest }

def addBook (s : Module) (id : Int) (name author : List UInt8) (alloc : Bool) : Module :=
  if alloc then
    let b := s.mem.brk
    let mem := s.mem.kzalloc
    let mem := mem.setBook b ⟨id, strncpy nameSize name, strncpy nameSize author, 0⟩
    { s with mem := mem.listAddRcu b }
  else s

/-- The common body of `borrow_book` and `return_book`; `alloc` is whether `kzalloc` succeeds. -/
def updateBook (u : Update) (s : Module) (id : Int) (async alloc : Bool) :
    Option (Module × Int) :=
  match lookup s.mem id with
  | none => none
  | some none => some (s, -1)
  | some (some oldB) =>
      if u.refuses (s.mem.book oldB).borrow then some (s, -1)
      else if !alloc then some (s, -1)
      else
        let newB := s.mem.brk
        let mem := s.mem.kzalloc
        let mem := mem.memcpy newB oldB
        let mem := mem.setBorrow newB u.flag
        if mem.links.prev (.node oldB) = .poison then none
        else
          let mem := mem.listReplaceRcu oldB newB
          some (reclaim { s with mem := mem } oldB async, 0)

def borrowBook (s : Module) (id : Int) (async alloc : Bool) : Option (Module × Int) :=
  updateBook .borrow s id async alloc

def returnBook (s : Module) (id : Int) (async alloc : Bool) : Option (Module × Int) :=
  updateBook .giveBack s id async alloc

def deleteBook (s : Module) (id : Int) (async : Bool) : Option Module :=
  match lookup s.mem id with
  | none => none
  | some none => some s
  | some (some b) =>
      if s.mem.links.prev (.node b) = .poison then none
      else some (reclaim { s with mem := s.mem.listDelRcu b } b async)

def isBorrowedBook (s : Module) (id : Int) : Option Int :=
  match lookup s.mem id with
  | none => none
  | some none => some (-1)
  | some (some b) => if s.mem.Live b then some (s.mem.book b).borrow else none

/-! ## Sequences of calls -/

/-- A call of the module's single thread, or an RCU callback running between two calls.
`alloc` is the outcome of the call's `kzalloc`. -/
inductive Call where
  | addBook (id : Int) (name author : List UInt8) (alloc : Bool)
  | borrowBook (id : Int) (async alloc : Bool)
  | returnBook (id : Int) (async alloc : Bool)
  | deleteBook (id : Int) (async : Bool)
  | isBorrowedBook (id : Int)
  | callback
deriving DecidableEq, Repr

/-- Run one call; the result is its return value, `none` for a `void` function. -/
def Call.run (s : Module) : Call → Option (Module × Option Int)
  | .addBook id name author alloc => some (Books.addBook s id name author alloc, none)
  | .borrowBook id async alloc =>
      (Books.borrowBook s id async alloc).map fun r => (r.1, some r.2)
  | .returnBook id async alloc =>
      (Books.returnBook s id async alloc).map fun r => (r.1, some r.2)
  | .deleteBook id async => (Books.deleteBook s id async).map fun s => (s, none)
  | .isBorrowedBook id => (Books.isBorrowedBook s id).map fun r => (s, some r)
  | .callback => some (bookReclaimCallback s, none)

/-- Run the calls in order and list their return values. -/
def runCalls (s : Module) : List Call → Option (Module × List (Option Int))
  | [] => some (s, [])
  | c :: cs => do
      let (s, r) ← c.run s
      let (s, rs) ← runCalls s cs
      return (s, r :: rs)

end KernelTrg.Books
