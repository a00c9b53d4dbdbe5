import KernelTrg.Books.Refinement
import KernelTrg.Books.Machine

/-!
# Calls that change one entry each

`borrow_book`, `return_book` and `delete_book` touch the entry with their id and no
other. On a catalogue whose ids are distinct, a list of such calls with distinct ids
therefore has the same effect and the same results in every order, and a call that
finds nothing to change may be left out of the effect.
-/

namespace KernelTrg.Books

inductive Change where
  | update (u : Update) (id : Int) (async : Bool)
  | delete (id : Int) (async : Bool)
deriving DecidableEq, Repr

namespace Change

def id : Change → Int
  | .update _ id _ | .delete id _ => id

def op : Change → Op
  | .update u id async => .updateBook u id async
  | .delete id async => .deleteBook id async

def call : Change → Call
  | .update .borrow id async => .borrowBook id async true
  | .update .giveBack id async => .returnBook id async true
  | .delete id async => .deleteBook id async

theorem op_id (ch : Change) : ch.op.id = ch.id := by cases ch <;> rfl

def applies (ch : Change) (e : Entry) : Bool :=
  match ch with
  | .update u id _ => e.id = id ∧ e.borrowed = !u.lends
  | .delete id _ => e.id = id

def effect (ch : Change) (e : Entry) : Option Entry :=
  if e.id = ch.id then
    match ch with
    | .update u .. => some { e with borrowed := u.lends }
    | .delete .. => none
  else some e

def ret (c : Catalogue) (ch : Change) : Option Int :=
  if c.any ch.applies then ch.op.success else ch.op.failure

end Change

def replay (c : Catalogue) (chs : List Change) : Catalogue :=
  chs.foldl (fun c ch => c.filterMap ch.effect) c

variable {ch ch' : Change} {chs : List Change} {c ca cb : Catalogue} {e e' : Entry} {i : Int}

namespace Change

theorem id_of_applies (h : ch.applies e = true) : e.id = ch.id := by
  cases ch <;> simp_all [applies, id]

theorem effect_of_ne (h : e.id ≠ ch.id) : ch.effect e = some e := by simp [effect, h]

theorem effect_id (h : ch.effect e = some e') : e'.id = e.id := by
  unfold effect at h
  split at h
  · cases ch with
    | update u id async =>
        cases h
        rfl
    | delete id async => cases h
  · cases h
    rfl

/-- A call with nothing to change leaves the entry as it is. -/
theorem effect_of_not_applies (h : ch.applies e = false) : ch.effect e = some e := by
  unfold effect
  split
  · rename_i hid
    cases ch with
    | update u id async =>
        have hflag : e.borrowed = u.lends := by
          cases hb : e.borrowed <;> cases hu : u.lends <;> simp_all [applies, Change.id]
        simp [← hflag]
    | delete id async => simp_all [applies, Change.id]
  · rfl

theorem filterMap_of_ne (h : ∀ e ∈ c, e.id ≠ ch.id) : c.filterMap ch.effect = c := by
  induction c with
  | nil => rfl
  | cons e c ih =>
      have he : ch.effect e = some e := effect_of_ne (h e (by simp))
      have hrest := ih fun x hx => h x (by simp [hx])
      simp only [List.filterMap_cons, he]
      rw [hrest]

theorem filterMap_split (ha : ∀ x ∈ ca, x.id ≠ ch.id) (hb : ∀ x ∈ cb, x.id ≠ ch.id) :
    (ca ++ e :: cb).filterMap ch.effect = ca ++ (ch.effect e).toList ++ cb := by
  rw [List.filterMap_append, List.filterMap_cons, filterMap_of_ne ha]
  cases h : ch.effect e with
  | none => simp [filterMap_of_ne hb]
  | some e' => simp [filterMap_of_ne hb]

theorem ids_sublist (ch : Change) (c : Catalogue) :
    ((c.filterMap ch.effect).map Entry.id).Sublist (c.map Entry.id) := by
  induction c with
  | nil => exact List.Sublist.refl _
  | cons e c ih =>
      cases h : ch.effect e with
      | none =>
          simp only [List.filterMap_cons, h, List.map_cons]
          exact ih.cons _
      | some e' =>
          simp only [List.filterMap_cons, h, List.map_cons, effect_id h]
          exact ih.cons_cons _

end Change

theorem ids_ne_of_split (hc : ((ca ++ e :: cb).map Entry.id).Nodup) :
    (∀ x ∈ ca, x.id ≠ e.id) ∧ ∀ x ∈ cb, x.id ≠ e.id := by
  rw [List.map_append, List.map_cons, List.nodup_append, List.nodup_cons] at hc
  refine ⟨fun x hx heq => ?_, fun x hx heq => ?_⟩
  · exact hc.2.2 x.id (List.mem_map_of_mem hx) e.id (by simp) heq
  · exact hc.2.1.1 (heq ▸ List.mem_map_of_mem hx)

theorem any_applies_split (hc : ((ca ++ e :: cb).map Entry.id).Nodup) (hid : e.id = ch.id) :
    (ca ++ e :: cb).any ch.applies = ch.applies e := by
  obtain ⟨ha, hb⟩ := ids_ne_of_split hc
  rw [hid] at ha hb
  have hna : ca.any ch.applies = false := by
    rw [List.any_eq_false]
    exact fun x hx hap => ha x hx (Change.id_of_applies hap)
  have hnb : cb.any ch.applies = false := by
    rw [List.any_eq_false]
    exact fun x hx hap => hb x hx (Change.id_of_applies hap)
  simp [hna, hnb]

/-! ## One call -/

/-- On a catalogue with distinct ids a call does what `effect` and `ret` say. -/
theorem Change.apply_eq (hc : (c.map Entry.id).Nodup) (ch : Change) :
    ch.call.apply c = (c.filterMap ch.effect, ch.ret c) := by
  by_cases hex : ∃ e ∈ c, e.id = ch.id
  · obtain ⟨e, he, hid⟩ := hex
    obtain ⟨ca, cb, rfl⟩ := List.append_of_mem he
    obtain ⟨ha, hb⟩ := ids_ne_of_split hc
    have hany := any_applies_split hc hid
    rw [hid] at ha hb
    rw [filterMap_split ha hb, ret, hany]
    cases ch with
    | update u id async =>
        have hid' : e.id = id := hid
        have ha' : ∀ x ∈ ca, x.id ≠ id := ha
        have hset : ∀ flag, Catalogue.switch flag (ca ++ e :: cb) id true =
            if e.borrowed = !flag then (ca ++ { e with borrowed := flag } :: cb, 0)
            else (ca ++ e :: cb, -1) := by
          intro flag
          rw [Catalogue.switch, Catalogue.findFirst_split ha' hid',
            Catalogue.setFirst_split ha' hid']
          simp
        cases u <;> cases hflag : e.borrowed <;> subst hid' <;>
          simp [Change.call, Call.apply, hset, hflag, effect, Change.id, Update.lends, applies, op,
            Op.success, Op.failure] <;> rw [← hflag]
    | delete id async =>
        have hid' : e.id = id := hid
        have ha' : ∀ x ∈ ca, x.id ≠ id := ha
        rw [Change.call, Call.apply, Catalogue.delete_split ha' hid']
        simp [effect, hid', Change.id, applies, op, Op.success]
  · have hne : ∀ e ∈ c, e.id ≠ ch.id := fun e he hid => hex ⟨e, he, hid⟩
    have hany : c.any ch.applies = false := by
      rw [List.any_eq_false]
      exact fun x hx hap => hne x hx (id_of_applies hap)
    rw [filterMap_of_ne hne, ret, hany]
    cases ch with
    | update u id async =>
        have hnone : c.findFirst id = none := Catalogue.findFirst_none hne
        cases u <;> simp [Change.call, Call.apply, Catalogue.switch, hnone, op, Op.failure]
    | delete id async =>
        have hnone : c.delete id = c := Catalogue.delete_none hne
        simp [Change.call, Call.apply, hnone, op, Op.failure]

theorem Change.ret_filterMap (hne : ch'.id ≠ ch.id) : ch'.ret (c.filterMap ch.effect) = ch'.ret c := by
  have hany : (c.filterMap ch.effect).any ch'.applies = c.any ch'.applies := by
    rw [Bool.eq_iff_iff, List.any_eq_true, List.any_eq_true]
    constructor
    · intro h
      rcases h with ⟨e', he', hap⟩
      obtain ⟨e, he, heff⟩ := List.mem_filterMap.mp he'
      have hid : e.id ≠ ch.id := by
        rw [← effect_id heff, id_of_applies hap]
        exact hne
      rw [effect_of_ne hid] at heff
      cases heff
      exact ⟨e', he, hap⟩
    · intro h
      rcases h with ⟨e, he, hap⟩
      have hid : e.id ≠ ch.id := by
        rw [id_of_applies hap]
        exact hne
      exact ⟨e, List.mem_filterMap.mpr ⟨e, he, effect_of_ne hid⟩, hap⟩
  rw [ret, hany, ret]

/-! ## Many calls -/

theorem replay_append (c : Catalogue) (chs : List Change) (ch : Change) :
    replay c (chs ++ [ch]) = (replay c chs).filterMap ch.effect := by
  simp [replay, List.foldl_append]

theorem replay_ids (c : Catalogue) (chs : List Change) :
    ((replay c chs).map Entry.id).Sublist (c.map Entry.id) := by
  induction chs generalizing c with
  | nil => exact List.Sublist.refl _
  | cons ch chs ih => exact (ih _).trans (ch.ids_sublist c)

theorem applyCalls_eq_replay (hc : (c.map Entry.id).Nodup) (hchs : (chs.map Change.id).Nodup) :
    applyCalls c (chs.map Change.call) = (replay c chs, chs.map fun ch => ch.ret c) := by
  induction chs generalizing c with
  | nil => rfl
  | cons ch chs ih =>
      rw [List.map_cons, List.nodup_cons] at hchs
      have hrest := ih ((ch.ids_sublist c).nodup hc) hchs.2
      have hret : ∀ x ∈ chs, x.ret (c.filterMap ch.effect) = x.ret c := by
        intro x hx
        refine Change.ret_filterMap fun heq => hchs.1 ?_
        exact heq ▸ List.mem_map_of_mem hx
      simp only [List.map_cons, applyCalls, Change.apply_eq hc, hrest]
      rw [List.map_congr_left hret]
      rfl

/-- The entries with an id that no call has are as before. -/
theorem mem_replay (hne : ∀ ch ∈ chs, ch.id ≠ i) (hid : e.id = i) : e ∈ replay c chs ↔ e ∈ c := by
  induction chs generalizing c with
  | nil => exact Iff.rfl
  | cons ch chs ih =>
      have hstep : e ∈ c.filterMap ch.effect ↔ e ∈ c := by
        have hch : i ≠ ch.id := (hne ch (by simp)).symm
        rw [List.mem_filterMap]
        constructor
        · intro h
          rcases h with ⟨x, hx, heff⟩
          have hxid : x.id ≠ ch.id := by
            rw [← Change.effect_id heff, hid]
            exact hch
          rw [Change.effect_of_ne hxid] at heff
          cases heff
          exact hx
        · exact fun he => ⟨e, he, Change.effect_of_ne (by rw [hid]; exact hch)⟩
      exact (ih fun x hx => hne x (by simp [hx])).trans hstep

/-- All calls at once: each entry goes through the call that has its id. -/
def merged (chs : List Change) (e : Entry) : Option Entry :=
  match chs.find? (·.id = e.id) with
  | some ch => ch.effect e
  | none => some e

theorem replay_eq_filterMap (h : (chs.map Change.id).Nodup) (c : Catalogue) :
    replay c chs = c.filterMap (merged chs) := by
  induction chs generalizing c with
  | nil =>
      have hid : merged [] = some := rfl
      rw [hid, List.filterMap_some]
      rfl
  | cons ch chs ih =>
      rw [List.map_cons, List.nodup_cons] at h
      have hpoint : ∀ e, merged (ch :: chs) e = (ch.effect e).bind (merged chs) := by
        intro e
        by_cases hid : ch.id = e.id
        · have hleft : merged (ch :: chs) e = ch.effect e := by simp [merged, hid]
          rw [hleft]
          cases heff : ch.effect e with
          | none => rfl
          | some e' =>
              have hnone : chs.find? (·.id = e'.id) = none := by
                rw [List.find?_eq_none]
                intro x hx heq
                have hxid : x.id = e'.id := by simpa using heq
                rw [Change.effect_id heff, ← hid] at hxid
                exact h.1 (hxid ▸ List.mem_map_of_mem hx)
              simp [merged, hnone]
        · have hne : e.id ≠ ch.id := fun heq => hid heq.symm
          simp [merged, hid, Change.effect_of_ne hne]
      have hfun : merged (ch :: chs) = fun e => (ch.effect e).bind (merged chs) := funext hpoint
      rw [hfun, ← List.filterMap_filterMap]
      exact ih h.2 _

theorem find?_of_mem (h : (chs.map Change.id).Nodup) (hch : ch ∈ chs) :
    chs.find? (·.id = ch.id) = some ch := by
  obtain ⟨as, bs, rfl⟩ := List.append_of_mem hch
  rw [List.map_append, List.map_cons, List.nodup_append] at h
  refine List.find?_eq_some_iff_append.mpr ⟨by simp, as, bs, rfl, ?_⟩
  intro x hx
  have hne := h.2.2 x.id (List.mem_map_of_mem hx) ch.id (by simp)
  simpa using hne

/-- Neither the order of the calls nor those without effect matter. -/
theorem replay_congr {done : List Change} (hchs : (chs.map Change.id).Nodup)
    (hdone : (done.map Change.id).Nodup) (hsub : ∀ ch ∈ done, ch ∈ chs)
    (hidle : ∀ ch ∈ chs, ch ∉ done → ∀ e ∈ c, ch.applies e = false) :
    replay c done = replay c chs := by
  rw [replay_eq_filterMap hdone, replay_eq_filterMap hchs]
  apply List.filterMap_congr
  intro e he
  cases hfind : chs.find? (·.id = e.id) with
  | none =>
      have hnone : done.find? (·.id = e.id) = none := by
        rw [List.find?_eq_none] at hfind ⊢
        exact fun x hx => hfind x (hsub x hx)
      simp [merged, hfind, hnone]
  | some ch =>
      have hch : ch ∈ chs := List.mem_of_find?_eq_some hfind
      have hid : ch.id = e.id := by simpa using List.find?_some hfind
      by_cases hin : ch ∈ done
      · have hsome := find?_of_mem hdone hin
        rw [hid] at hsome
        simp [merged, hfind, hsome]
      · have hnone : done.find? (·.id = e.id) = none := by
          rw [List.find?_eq_none]
          intro x hx heq
          have hxid : x.id = ch.id := by
            rw [hid]
            simpa using heq
          have hsome := find?_of_mem hchs (hsub x hx)
          rw [hxid, find?_of_mem hchs hch] at hsome
          exact hin (Option.some.inj hsome ▸ hx)
        simp [merged, hfind, hnone, Change.effect_of_not_applies (hidle ch hch hin e he)]

end KernelTrg.Books
