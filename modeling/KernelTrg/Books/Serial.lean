import KernelTrg.Books.Refinement
import KernelTrg.Books.Machine
import KernelTrg.Lib.Runs

/-!
# Calls one after the other

The two models of the module agree: calls that do not overlap take the concurrent machine through
the states that the functions of the sequential model compute, and return what these return.
-/

namespace KernelTrg.Books

open LinkRing Runs

def Over (f : Frame) : Prop := (∃ r, f.pc = .done r) ∧ f.since = none

/-- A call begins, and a callback is invoked, only where no other call is in flight. -/
def BeginsAlone (s : Sys) : Action → Prop
  | .run _ _ => True
  | .call _ | .callback _ => s.lock = none ∧ ∀ f ∈ s.frames, Over f

/-- The call of frame `f` is the only one in flight: those in front of it are over. -/
structure Alone (front : List Frame) (f : Frame) (lock : Option Nat) (m : Module) (s : Sys) :
    Prop where
  frames : s.frames = front ++ [f]
  lock : s.lock = lock
  mem : s.mem = m.mem
  callbacks : s.callbacks.map Prod.fst = m.callbacks

variable {cfg : Config} {front : List Frame} {f : Frame} {lock : Option Nat} {m m' : Module}
  {s : Sys} {op : Op} {pc : Pc} {alloc : Bool} {Q : Sys → Prop} {since : Option Nat}

namespace Alone

theorem next (h : Alone front f lock m s) (alloc : Bool) (s₁ : Sys) (f' : Frame) (pc : Pc)
    (lock' : Option Nat) (m' : Module)
    (hstep : s.frameStep cfg front.length f alloc = some (s₁.goto front.length f' pc))
    (hframes : s₁.frames = s.frames) (hlock : s₁.lock = lock') (hmem : s₁.mem = m'.mem)
    (hcallbacks : s₁.callbacks.map Prod.fst = m'.callbacks)
    (hQ : ∀ s', Alone front { f' with pc := pc } lock' m' s' → Reaches (Sys.step cfg) BeginsAlone s' Q) :
    Reaches (Sys.step cfg) BeginsAlone s Q := by
  have hf : s.frames[front.length]? = some f := by
    rw [h.frames]
    exact List.getElem?_concat_length
  have ha : s.step cfg (.run front.length alloc) = some (s₁.goto front.length f' pc).tick := by
    simp only [Sys.step, Sys.act, hf, hstep, Option.map_some]
  apply Reaches.cons ha trivial
  apply hQ
  refine ⟨?_, hlock, hmem, hcallbacks⟩
  change s₁.frames.set front.length _ = _
  rw [hframes, h.frames, List.set_append_right _ _ (Nat.le_refl _), Nat.sub_self]
  rfl

theorem move (h : Alone front f lock m s) (f' : Frame) (pc : Pc)
    (hstep : s.frameStep cfg front.length f true = some (s.goto front.length f' pc))
    (hQ : ∀ s', Alone front { f' with pc := pc } lock m s' → Reaches (Sys.step cfg) BeginsAlone s' Q) :
    Reaches (Sys.step cfg) BeginsAlone s Q :=
  h.next true s f' pc lock m hstep rfl h.lock h.mem h.callbacks hQ

/-- The search of every call stops where `findBook` does. -/
theorem search {fuel : Nat} {p : Ptr Addr} {r : Option Addr}
    (hfind : findBook m.mem op.id fuel p = some r)
    (h : Alone front ⟨op, .walk p, since⟩ lock m s)
    (hQ : ∀ s', Alone front ⟨op, r.elim .exit (Sys.hit op), since⟩ lock m s' →
      Reaches (Sys.step cfg) BeginsAlone s' Q) :
    Reaches (Sys.step cfg) BeginsAlone s Q := by
  induction fuel generalizing p s with
  | zero => cases hfind
  | succ fuel ih =>
      cases p with
      | head =>
          cases hfind
          exact h.move ⟨op, .walk .head, since⟩ .exit rfl hQ
      | node b =>
          rw [findBook] at hfind
          split at hfind
          · split at hfind
            case isTrue hid =>
                cases hfind
                have hid' : (s.mem.book b).id = op.id := by rw [h.mem]; exact hid
                exact h.move ⟨op, .walk (.node b), since⟩ (Sys.hit op b) (if_pos hid') hQ
            case isFalse hid =>
                have hid' : (s.mem.book b).id ≠ op.id := by rw [h.mem]; exact hid
                apply h.move ⟨op, .walk (.node b), since⟩ (.next b) (if_neg hid')
                intro s' h'
                apply h'.move ⟨op, .next b, since⟩ (.walk (s'.mem.links.next (.node b))) rfl
                intro s'' h''
                rw [h'.mem] at h''
                exact ih hfind h''
          · cases hfind
      | null => cases hfind
      | poison => cases hfind

end Alone

namespace Alone

theorem graceOver (hfront : ∀ g ∈ front, Over g) (h : Alone front ⟨op, pc, none⟩ lock m s)
    (t : Nat) : s.graceOver t = true := by
  unfold Sys.graceOver
  rw [h.frames, List.all_eq_true]
  intro g hg
  have hsince : g.since = none := by
    rcases List.mem_append.mp hg with hg | hg
    · exact (hfront g hg).2
    · rw [List.mem_singleton.mp hg]
  rw [hsince]

theorem lookup {r : Option Addr} (hlookup : Books.lookup m.mem op.id = some r)
    (h : Alone front ⟨op, .first, since⟩ lock m s)
    (hQ : ∀ s', Alone front ⟨op, r.elim .exit (Sys.hit op), since⟩ lock m s' →
      Reaches (Sys.step cfg) BeginsAlone s' Q) :
    Reaches (Sys.step cfg) BeginsAlone s Q := by
  apply h.move ⟨op, .first, since⟩ (.walk (s.mem.links.next .head)) rfl
  intro s' h'
  rw [h.mem] at h'
  exact h'.search hlookup hQ

/-- The old object goes to its callback, or is freed at once: nobody reads. -/
theorem reclaims {b : Addr} (hfront : ∀ g ∈ front, Over g)
    (h : Alone front ⟨op, .reclaim b, none⟩ none m s)
    (hQ : ∀ s', Alone front ⟨op, .done op.success, none⟩ none (Books.reclaim m b op.async) s' →
      Reaches (Sys.step cfg) BeginsAlone s' Q) :
    Reaches (Sys.step cfg) BeginsAlone s Q := by
  cases hasync : op.async with
  | true =>
      rw [hasync] at hQ
      apply h.next true { s with callbacks := s.callbacks ++ [(b, s.clock)]
                                 hist := .retired front.length b :: s.hist }
        ⟨op, .reclaim b, none⟩ (.done op.success) none (Books.reclaim m b true)
      · exact if_pos hasync
      · rfl
      · exact h.lock
      · exact h.mem
      · rw [List.map_append, h.callbacks]
        rfl
      · exact hQ
  | false =>
      rw [hasync] at hQ
      apply h.move ⟨op, .reclaim b, none⟩ (.sync b s.clock) (if_neg (by simp [hasync]))
      intro s' h'
      apply h'.move ⟨op, .sync b s.clock, none⟩ (.free b) (if_pos (h'.graceOver hfront s.clock))
      intro s'' h''
      apply h''.next true { s'' with mem := s''.mem.kfree b
                                     hist := .retired front.length b :: s''.hist }
        ⟨op, .free b, none⟩ (.done op.success) none (Books.reclaim m b false) rfl rfl h''.lock
      · change s''.mem.kfree b = m.mem.kfree b
        rw [h''.mem]
      · exact h''.callbacks
      · exact hQ

/-! ## The calls -/

theorem addBook {id : Int} {name author : List UInt8} (alloc : Bool)
    (h : Alone front (Frame.new (.addBook id name author)) none m s)
    (hQ : ∀ s', Alone front ⟨.addBook id name author, .done none, none⟩ none
      (Books.addBook m id name author alloc) s' → Reaches (Sys.step cfg) BeginsAlone s' Q) :
    Reaches (Sys.step cfg) BeginsAlone s Q := by
  cases alloc with
  | false =>
      exact h.next false s (Frame.new (.addBook id name author)) (.done none) none m rfl rfl h.lock
        h.mem h.callbacks hQ
  | true =>
      let op := Op.addBook id name author
      let b := m.mem.brk
      let v : Book := ⟨id, strncpy nameSize name, strncpy nameSize author, 0⟩
      have hbrk : s.mem.brk = b := by rw [h.mem]
      apply h.next true { s with mem := s.mem.kzalloc } (Frame.new op) (.init b) none
        { m with mem := m.mem.kzalloc }
      · change some _ = some _
        rw [hbrk]
      · rfl
      · exact h.lock
      · exact congrArg Mem.kzalloc h.mem
      · exact h.callbacks
      intro s₁ h₁
      apply h₁.next true { s₁ with mem := s₁.mem.setBook b v } ⟨op, .init b, none⟩ (.addLock b) none
        { m with mem := m.mem.kzalloc.setBook b v } rfl rfl h₁.lock
        (congrArg (Mem.setBook · b v) h₁.mem) h₁.callbacks
      intro s₂ h₂
      apply h₂.next true { s₂ with lock := some front.length } ⟨op, .addLock b, none⟩ (.addLink b)
        (some front.length) _ (if_pos h₂.lock) rfl rfl h₂.mem h₂.callbacks
      intro s₃ h₃
      apply h₃.next true { s₃ with mem := s₃.mem.listAddRcu b } ⟨op, .addLink b, none⟩ .addUnlock
        (some front.length) { m with mem := (m.mem.kzalloc.setBook b v).listAddRcu b } rfl rfl h₃.lock
        (congrArg (Mem.listAddRcu · b) h₃.mem) h₃.callbacks
      intro s₄ h₄
      exact h₄.next true { s₄ with lock := none } ⟨op, .addUnlock, none⟩ (.done none) none _ rfl rfl
        rfl h₄.mem h₄.callbacks hQ

end Alone

namespace Alone

theorem gives_up (hdel : op.deletes = false) (h : Alone front ⟨op, .exit, since⟩ none m s)
    (hQ : ∀ s', Alone front ⟨op, .done op.failure, none⟩ none m s' →
      Reaches (Sys.step cfg) BeginsAlone s' Q) :
    Reaches (Sys.step cfg) BeginsAlone s Q :=
  h.move ⟨op, .exit, none⟩ (.done op.failure) (if_neg (by simp [hdel])) hQ

theorem replaces {u : Update} {id : Int} {async : Bool} {b : Addr}
    (hfront : ∀ g ∈ front, Over g)
    (hprev : ((m.mem.kzalloc.memcpy m.mem.brk b).setBorrow m.mem.brk u.flag).links.prev (.node b) ≠
      .poison)
    (h : Alone front ⟨.updateBook u id async, .alloc b, since⟩ none m s)
    (hQ : ∀ s', Alone front ⟨.updateBook u id async, .done (some 0), none⟩ none
      (Books.reclaim { m with mem := ((m.mem.kzalloc.memcpy m.mem.brk b).setBorrow m.mem.brk
        u.flag).listReplaceRcu b m.mem.brk } b async) s' → Reaches (Sys.step cfg) BeginsAlone s' Q) :
    Reaches (Sys.step cfg) BeginsAlone s Q := by
  let op := Op.updateBook u id async
  let newB := m.mem.brk
  let copy := (m.mem.kzalloc.memcpy newB b).setBorrow newB u.flag
  have hbrk : s.mem.brk = newB := by rw [h.mem]
  apply h.next true { s with mem := s.mem.kzalloc } ⟨op, .alloc b, since⟩ (.copy b newB) none
    { m with mem := m.mem.kzalloc }
  · change some _ = some _
    rw [hbrk]
  · rfl
  · exact h.lock
  · exact congrArg Mem.kzalloc h.mem
  · exact h.callbacks
  intro s₁ h₁
  apply h₁.next true { s₁ with mem := (s₁.mem.memcpy newB b).setBorrow newB u.flag }
    ⟨op, .copy b newB, since⟩ (.lock b newB) none { m with mem := copy } rfl rfl h₁.lock
    (congrArg (fun mem => (Mem.memcpy mem newB b).setBorrow newB u.flag) h₁.mem) h₁.callbacks
  intro s₂ h₂
  apply h₂.next true { s₂ with lock := some front.length } ⟨op, .lock b newB, since⟩
    (.replace b newB) (some front.length) _ (if_pos h₂.lock) rfl rfl h₂.mem h₂.callbacks
  intro s₃ h₃
  apply h₃.next true { s₃ with
      mem := s₃.mem.listReplaceRcu b newB
      entry := Function.update s₃.entry newB (s₃.entry b)
      hist := .replaced front.length u (s₃.entry b) b :: s₃.hist }
    ⟨op, .replace b newB, since⟩ (.unlock b) (some front.length)
    { m with mem := copy.listReplaceRcu b newB }
  · refine if_neg fun hpoison => hprev ?_
    have hmem : s₃.mem = copy := h₃.mem
    change copy.links.prev (.node b) = .poison
    rw [← hmem]
    exact hpoison.2
  · rfl
  · exact h₃.lock
  · exact congrArg (Mem.listReplaceRcu · b newB) h₃.mem
  · exact h₃.callbacks
  intro s₄ h₄
  apply h₄.next true { s₄ with lock := none } ⟨op, .unlock b, since⟩ (.leave b) none _ rfl rfl rfl
    h₄.mem h₄.callbacks
  intro s₅ h₅
  apply h₅.move ⟨op, .leave b, none⟩ (.reclaim b) rfl
  intro s₆ h₆
  exact h₆.reclaims hfront hQ

theorem updateBook {u : Update} {id : Int} {async : Bool} {r : Int}
    (hfront : ∀ g ∈ front, Over g)
    (hrun : Books.updateBook u m id async alloc = some (m', r))
    (h : Alone front (Frame.new (.updateBook u id async)) none m s)
    (hQ : ∀ s', Alone front ⟨.updateBook u id async, .done (some r), none⟩ none m' s' →
      Reaches (Sys.step cfg) BeginsAlone s' Q) :
    Reaches (Sys.step cfg) BeginsAlone s Q := by
  let op := Op.updateBook u id async
  apply h.move { Frame.new op with since := some s.clock } .first rfl
  intro s₁ h₁
  unfold Books.updateBook at hrun
  cases hlookup : Books.lookup m.mem id with
  | none =>
      rw [hlookup] at hrun
      cases hrun
  | some found =>
      rw [hlookup] at hrun
      apply h₁.lookup hlookup
      intro s₂ h₂
      cases found with
      | none =>
          cases hrun
          exact h₂.gives_up rfl hQ
      | some b =>
          have hbook : s₂.mem.book b = m.mem.book b := by rw [h₂.mem]
          change (if u.refuses (m.mem.book b).borrow then some (m, -1) else _) = _ at hrun
          split at hrun
          case isTrue hrefuses =>
              cases hrun
              rw [← hbook] at hrefuses
              apply h₂.move ⟨op, .test b, some s.clock⟩ .exit (if_pos hrefuses)
              intro s₃ h₃
              exact h₃.gives_up rfl hQ
          case isFalse hrefuses =>
              rw [← hbook] at hrefuses
              apply h₂.move ⟨op, .test b, some s.clock⟩ (.alloc b) (if_neg hrefuses)
              intro s₃ h₃
              cases alloc with
              | false =>
                  cases hrun
                  apply h₃.next false s₃ ⟨op, .alloc b, some s.clock⟩ .exit none m rfl rfl h₃.lock
                    h₃.mem h₃.callbacks
                  intro s₄ h₄
                  exact h₄.gives_up rfl hQ
              | true =>
                  change (if (((m.mem.kzalloc.memcpy m.mem.brk b).setBorrow m.mem.brk
                    u.flag).links.prev (.node b)) = .poison then none else _) = _ at hrun
                  split at hrun
                  case isTrue => cases hrun
                  case isFalse hprev =>
                      cases hrun
                      exact h₃.replaces hfront hprev hQ

theorem deleteBook {id : Int} {async : Bool} (hfront : ∀ g ∈ front, Over g)
    (hrun : Books.deleteBook m id async = some m')
    (h : Alone front (Frame.new (.deleteBook id async)) none m s)
    (hQ : ∀ s', Alone front ⟨.deleteBook id async, .done none, none⟩ none m' s' →
      Reaches (Sys.step cfg) BeginsAlone s' Q) :
    Reaches (Sys.step cfg) BeginsAlone s Q := by
  let op := Op.deleteBook id async
  apply h.next true { s with lock := some front.length } (Frame.new op) .first (some front.length) m
    (if_pos h.lock) rfl rfl h.mem h.callbacks
  intro s₁ h₁
  unfold Books.deleteBook at hrun
  cases hlookup : Books.lookup m.mem id with
  | none =>
      rw [hlookup] at hrun
      cases hrun
  | some found =>
      rw [hlookup] at hrun
      apply h₁.lookup hlookup
      intro s₂ h₂
      cases found with
      | none =>
          cases hrun
          exact h₂.next true { s₂ with lock := none } ⟨op, .exit, none⟩ (.done none) none m rfl rfl
            rfl h₂.mem h₂.callbacks hQ
      | some b =>
          change (if m.mem.links.prev (.node b) = .poison then none else _) = _ at hrun
          split at hrun
          case isTrue => cases hrun
          case isFalse hprev =>
              cases hrun
              apply h₂.next true { s₂ with mem := s₂.mem.listDelRcu b
                                           hist := .deleted front.length b :: s₂.hist }
                ⟨op, .del b, none⟩ (.unlock b) (some front.length)
                { m with mem := m.mem.listDelRcu b }
              · refine if_neg fun hpoison => hprev ?_
                rw [← h₂.mem]
                exact hpoison.2
              · rfl
              · exact h₂.lock
              · exact congrArg (Mem.listDelRcu · b) h₂.mem
              · exact h₂.callbacks
              intro s₃ h₃
              apply h₃.next true { s₃ with lock := none } ⟨op, .unlock b, none⟩ (.reclaim b) none _
                rfl rfl rfl h₃.mem h₃.callbacks
              intro s₄ h₄
              exact h₄.reclaims hfront hQ

theorem isBorrowedBook {id : Int} {r : Int} (hrun : Books.isBorrowedBook m id = some r)
    (h : Alone front (Frame.new (.isBorrowedBook id)) none m s)
    (hQ : ∀ s', Alone front ⟨.isBorrowedBook id, .done (some r), none⟩ none m s' →
      Reaches (Sys.step cfg) BeginsAlone s' Q) :
    Reaches (Sys.step cfg) BeginsAlone s Q := by
  let op := Op.isBorrowedBook id
  apply h.move { Frame.new op with since := some s.clock } .first rfl
  intro s₁ h₁
  unfold Books.isBorrowedBook at hrun
  cases hlookup : Books.lookup m.mem id with
  | none =>
      rw [hlookup] at hrun
      cases hrun
  | some found =>
      rw [hlookup] at hrun
      apply h₁.lookup hlookup
      intro s₂ h₂
      cases found with
      | none =>
          cases hrun
          exact h₂.gives_up rfl hQ
      | some b =>
          change (if m.mem.Live b then some (m.mem.book b).borrow else none) = _ at hrun
          split at hrun
          case isTrue =>
              cases hrun
              apply h₂.move ⟨op, .found b, none⟩ (.late b) rfl
              intro s₃ h₃
              rw [← h₃.mem] at hQ
              exact h₃.move ⟨op, .late b, none⟩ (.done (some (s₃.mem.book b).borrow)) rfl hQ
          case isFalse => cases hrun

end Alone

/-! ## Sequences of calls -/

def Call.toOp : Call → Option Op
  | .addBook id name author _ => some (.addBook id name author)
  | .borrowBook id async _ => some (.borrowBook id async)
  | .returnBook id async _ => some (.returnBook id async)
  | .deleteBook id async => some (.deleteBook id async)
  | .isBorrowedBook id => some (.isBorrowedBook id)
  | .callback => none

def finished (calls : List Call) (rs : List (Option Int)) : List Frame :=
  (calls.zip rs).filterMap fun c => c.1.toOp.map fun op => ⟨op, .done c.2, none⟩

/-- Nothing runs: these calls are over, and the state is that of the sequential model. -/
structure Idle (front : List Frame) (m : Module) (s : Sys) : Prop where
  frames : s.frames = front
  lock : s.lock = none
  mem : s.mem = m.mem
  callbacks : s.callbacks.map Prod.fst = m.callbacks

theorem over_finished {calls : List Call} {rs : List (Option Int)} {g : Frame}
    (hg : g ∈ finished calls rs) : Over g := by
  rcases List.mem_filterMap.mp hg with ⟨⟨call, r⟩, _, hmap⟩
  rcases Option.map_eq_some_iff.mp hmap with ⟨op, _, rfl⟩
  exact ⟨⟨r, rfl⟩, rfl⟩

namespace Idle

theorem begins (hfront : ∀ g ∈ front, Over g) (h : Idle front m s)
    (hQ : ∀ s', Alone front (Frame.new op) none m s' → Reaches (Sys.step cfg) BeginsAlone s' Q) :
    Reaches (Sys.step cfg) BeginsAlone s Q := by
  have ha : s.step cfg (.call op) = some { s with frames := s.frames ++ [Frame.new op] }.tick := rfl
  apply Reaches.cons ha ⟨h.lock, h.frames ▸ hfront⟩
  apply hQ
  exact ⟨by rw [← h.frames]; rfl, h.lock, h.mem, h.callbacks⟩

theorem callback (hfront : ∀ g ∈ front, Over g) (h : Idle front m s) :
    Reaches (Sys.step cfg) BeginsAlone s (Idle front (Books.bookReclaimCallback m)) := by
  unfold Books.bookReclaimCallback
  cases hm : m.callbacks with
  | nil => exact Reaches.done h
  | cons b rest =>
      have hs := h.callbacks
      rw [hm] at hs
      rcases List.map_eq_cons_iff.mp hs with ⟨⟨b', t⟩, later, hcallbacks, rfl, hlater⟩
      have hgrace : s.graceOver t = true := by
        unfold Sys.graceOver
        rw [h.frames, List.all_eq_true]
        intro g hg
        rw [(hfront g hg).2]
      have ha : s.step cfg (.callback 0) =
          some { s with mem := s.mem.kfree b', callbacks := later }.tick := by
        simp [Sys.step, Sys.act, Sys.bookReclaimCallback, hcallbacks, hgrace]
      apply Reaches.cons ha ⟨h.lock, h.frames ▸ hfront⟩
      exact Reaches.done ⟨h.frames, h.lock, congrArg (Mem.kfree · b') h.mem, hlater⟩

/-- A call that begins where nothing runs does what the sequential function does. -/
theorem runs {call : Call} {r : Option Int} (hfront : ∀ g ∈ front, Over g)
    (hrun : call.run m = some (m', r)) (h : Idle front m s) :
    Reaches (Sys.step cfg) BeginsAlone s (Idle (front ++ finished [call] [r]) m') := by
  have hend : ∀ {op : Op} {r : Option Int} {s' : Sys},
      Alone front ⟨op, .done r, none⟩ none m' s' →
        Reaches (Sys.step cfg) BeginsAlone s' (Idle (front ++ [⟨op, .done r, none⟩]) m') :=
    fun h' => Reaches.done ⟨h'.frames, h'.lock, h'.mem, h'.callbacks⟩
  cases call with
  | addBook id name author alloc =>
      cases hrun
      exact h.begins hfront fun s' h' => h'.addBook alloc fun _ => hend
  | borrowBook id async alloc =>
      rcases Option.map_eq_some_iff.mp hrun with ⟨⟨m₁, r⟩, hcall, heq⟩
      cases heq
      exact h.begins hfront fun s' h' => h'.updateBook hfront hcall fun _ => hend
  | returnBook id async alloc =>
      rcases Option.map_eq_some_iff.mp hrun with ⟨⟨m₁, r⟩, hcall, heq⟩
      cases heq
      exact h.begins hfront fun s' h' => h'.updateBook hfront hcall fun _ => hend
  | deleteBook id async =>
      rcases Option.map_eq_some_iff.mp hrun with ⟨m₁, hcall, heq⟩
      cases heq
      exact h.begins hfront fun s' h' => h'.deleteBook hfront hcall fun _ => hend
  | isBorrowedBook id =>
      rcases Option.map_eq_some_iff.mp hrun with ⟨r, hcall, heq⟩
      cases heq
      exact h.begins hfront fun s' h' => h'.isBorrowedBook hcall fun _ => hend
  | callback =>
      cases hrun
      have hnil : finished [.callback] [none] = [] := rfl
      rw [hnil, List.append_nil]
      exact h.callback hfront

theorem runCalls {calls : List Call} {rs : List (Option Int)}
    (hfront : ∀ g ∈ front, Over g) (hrun : Books.runCalls m calls = some (m', rs))
    (h : Idle front m s) :
    Reaches (Sys.step cfg) BeginsAlone s (Idle (front ++ finished calls rs) m') := by
  induction calls generalizing front m s rs with
  | nil =>
      cases hrun
      rw [finished, List.zip_nil_left, List.filterMap_nil, List.append_nil]
      exact Reaches.done h
  | cons call calls ih =>
      rcases Option.bind_eq_some_iff.mp hrun with ⟨⟨m₁, r⟩, hcall, hrest⟩
      rcases Option.bind_eq_some_iff.mp hrest with ⟨⟨m₂, rs'⟩, hcalls, heq⟩
      cases heq
      have hfinished : finished (call :: calls) (r :: rs') =
          finished [call] [r] ++ finished calls rs' := by
        simp only [finished, List.zip_cons_cons, List.zip_nil_left]
        rw [← List.filterMap_append]
        rfl
      rw [hfinished, ← List.append_assoc]
      refine (h.runs hfront hcall).trans fun s₁ h₁ => ih ?_ hcalls h₁
      intro g hg
      rcases List.mem_append.mp hg with hg | hg
      · exact hfront g hg
      · exact over_finished hg

end Idle

/-- The concurrent machine can serve any calls one after the other, and leaves the memory, the
callbacks and the return values of the sequential model then, hence the abstract catalogue. -/
theorem serial_calls_agree (cfg : Config) (calls : List Call) :
    ∃ as s m, Runs.exec (Sys.step cfg) (Sys.boot Mem.init []) as = some s ∧
      Along (Sys.step cfg) BeginsAlone (Sys.boot Mem.init []) as ∧
      runCalls Module.init calls = some (m, (applyCalls [] calls).2) ∧
      s.mem = m.mem ∧ s.callbacks.map Prod.fst = m.callbacks ∧ s.lock = none ∧
      s.frames = finished calls (applyCalls [] calls).2 ∧
      s.mem.catalogue = (applyCalls [] calls).1.map Entry.toBook := by
  rcases runCalls_refines refines_init calls with ⟨m, hrun, xs, hx⟩
  have hidle : Idle [] Module.init (Sys.boot Mem.init []) := ⟨rfl, rfl, rfl, rfl⟩
  have hreach : Reaches (Sys.step cfg) BeginsAlone (Sys.boot Mem.init [])
      (Idle ([] ++ finished calls (applyCalls [] calls).2) m) := hidle.runCalls (by simp) hrun
  rcases hreach with ⟨as, s, halong, has, h⟩
  refine ⟨as, s, m, has, halong, hrun, h.mem, h.callbacks, h.lock, ?_, ?_⟩
  · rw [h.frames, List.nil_append]
  · rw [h.mem]
    exact hx.shown.catalogue

end KernelTrg.Books
