import Mathlib.Data.List.Basic

/-!
# What the book list is for

The abstract catalogue: a list of entries, newest first, in which every operation
acts on the first entry with a given id. Nothing here speaks of memory; `Refinement`
relates it to the list of `struct book` objects.
-/

namespace KernelTrg.Books

/-- An entry of the catalogue; `name` and `author` are whole arrays. -/
structure Entry where
  id : Int
  name : List UInt8
  author : List UInt8
  borrowed : Bool
deriving DecidableEq, Repr

abbrev Catalogue := List Entry

namespace Catalogue

/-- Set the borrow flag of the first entry with the id. -/
def setFirst (id : Int) (flag : Bool) : Catalogue → Catalogue
  | [] => []
  | e :: c => if e.id = id then { e with borrowed := flag } :: c else e :: setFirst id flag c

def findFirst (c : Catalogue) (id : Int) : Option Entry := c.find? (·.id = id)

/-- A new entry goes to the front, when there is memory for it. -/
def add (c : Catalogue) (e : Entry) (alloc : Bool) : Catalogue := if alloc then e :: c else c

/-- Bring the first entry with the id to `flag`: `0` when it exists, has the opposite flag
and memory is available, else `-1` and no change. -/
def switch (flag : Bool) (c : Catalogue) (id : Int) (alloc : Bool) : Catalogue × Int :=
  match c.findFirst id with
  | some e => if e.borrowed = !flag ∧ alloc then (c.setFirst id flag, 0) else (c, -1)
  | none => (c, -1)

def delete (c : Catalogue) (id : Int) : Catalogue := c.eraseP (·.id = id)

def isBorrowed (c : Catalogue) (id : Int) : Int :=
  match c.findFirst id with
  | some e => if e.borrowed then 1 else 0
  | none => -1

/-! ## The operations at a split of the catalogue -/

variable {c as bs : Catalogue} {e : Entry} {id : Int} {flag alloc : Bool}

theorem findFirst_split (has : ∀ a ∈ as, a.id ≠ id) (he : e.id = id) :
    findFirst (as ++ e :: bs) id = some e := by
  simp only [findFirst, List.find?_eq_some_iff_append]
  exact ⟨by simpa using he, as, bs, rfl, by simpa using has⟩

theorem findFirst_none (hc : ∀ a ∈ c, a.id ≠ id) : findFirst c id = none := by
  simpa [findFirst] using hc

theorem setFirst_split (has : ∀ a ∈ as, a.id ≠ id) (he : e.id = id) :
    setFirst id flag (as ++ e :: bs) = as ++ { e with borrowed := flag } :: bs := by
  induction as with
  | nil => simp [setFirst, he]
  | cons a as ih =>
      have ha : a.id ≠ id := has a (by simp)
      simp only [List.cons_append, setFirst, if_neg ha]
      rw [ih fun x hx => has x (by simp [hx])]

theorem delete_split (has : ∀ a ∈ as, a.id ≠ id) (he : e.id = id) :
    delete (as ++ e :: bs) id = as ++ bs := by
  unfold delete
  rw [List.eraseP_append_right _ (by simpa using has),
    List.eraseP_cons_of_pos (by simpa using he)]

theorem delete_none (hc : ∀ a ∈ c, a.id ≠ id) : delete c id = c :=
  List.eraseP_of_forall_not (by simpa using hc)

/-! ## What an operation leaves of the first entry with another id -/

variable {id' : Int}

theorem findFirst_cons_of_eq {a : Entry} (ha : a.id = id) : findFirst (a :: c) id = some a := by
  simp [findFirst, ha]

theorem findFirst_cons_of_ne {a : Entry} (ha : a.id ≠ id) :
    findFirst (a :: c) id = findFirst c id := by
  simp [findFirst, ha]

theorem findFirst_setFirst (he : c.findFirst id = some e) :
    ∃ borrowed, (c.setFirst id' flag).findFirst id = some { e with borrowed } := by
  induction c with
  | nil => cases he
  | cons a c ih =>
      rw [setFirst]
      by_cases ha : a.id = id
      · rw [findFirst_cons_of_eq ha] at he
        cases he
        split
        · exact ⟨flag, findFirst_cons_of_eq ha⟩
        · exact ⟨e.borrowed, findFirst_cons_of_eq ha⟩
      · rw [findFirst_cons_of_ne ha] at he
        split
        · have hset : ({ a with borrowed := flag } : Entry).id ≠ id := ha
          exact ⟨e.borrowed, (findFirst_cons_of_ne hset).trans he⟩
        · rw [findFirst_cons_of_ne ha]
          exact ih he

theorem findFirst_switch (he : c.findFirst id = some e) :
    ∃ borrowed, (c.switch flag id' alloc).1.findFirst id = some { e with borrowed } := by
  unfold switch
  split
  · split
    · exact findFirst_setFirst he
    · exact ⟨e.borrowed, he⟩
  · exact ⟨e.borrowed, he⟩

theorem findFirst_delete (hid : id' ≠ id) : (c.delete id').findFirst id = c.findFirst id := by
  induction c with
  | nil => rfl
  | cons a c ih =>
      by_cases ha : a.id = id'
      · unfold delete
        rw [List.eraseP_cons_of_pos (by simpa using ha), findFirst_cons_of_ne (ha ▸ hid)]
      · unfold delete
        rw [List.eraseP_cons_of_neg (by simpa using ha)]
        by_cases hne : a.id = id
        · rw [findFirst_cons_of_eq hne, findFirst_cons_of_eq hne]
        · rw [findFirst_cons_of_ne hne, findFirst_cons_of_ne hne]
          exact ih

theorem findFirst_add {new : Entry} (hid : new.id ≠ id) :
    (c.add new alloc).findFirst id = c.findFirst id := by
  cases alloc <;> simp [add, findFirst, hid]

end Catalogue

end KernelTrg.Books
