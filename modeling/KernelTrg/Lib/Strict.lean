import Mathlib.Data.List.Basic

/-!
# Scripts in strict mode

A script under `set -euo pipefail` prints and goes on until a command fails; its status is
then the script's.
-/

namespace KernelTrg.Strict

/-- What a part of a script prints, and its value, or the status the script exits with there. -/
structure Script (α : Type) where
  out : List UInt8
  result : Except Nat α

def print (text : List UInt8) : Script Unit := ⟨text, .ok ()⟩

def command (text : List UInt8) (status : Nat) : Script Unit :=
  ⟨text, if status = 0 then .ok () else .error status⟩

def exit {α : Type} (status : Nat) : Script α := ⟨[], .error status⟩

/-- A command's value, unless it fails. -/
def checked {α : Type} (status : Nat) (value : α) : Script α :=
  if status = 0 then ⟨[], .ok value⟩ else exit status

/-- The status of a pipeline: that of the last command that fails. -/
def pipefail (statuses : List Nat) : Nat := (statuses.filter (· ≠ 0)).getLastD 0

instance : Monad Script where
  pure a := ⟨[], .ok a⟩
  bind m f :=
    match m.result with
    | .ok a => ⟨m.out ++ (f a).out, (f a).result⟩
    | .error status => ⟨m.out, .error status⟩

instance : LawfulMonad Script :=
  LawfulMonad.mk' Script
    (by
      intro α m
      rcases m with ⟨out, _ | a⟩
      · rfl
      · change Script.mk (out ++ []) (.ok a) = _
        rw [List.append_nil])
    (fun _ _ => rfl)
    (by
      intro α β γ m f g
      rcases m with ⟨out, _ | a⟩
      · rfl
      · rcases hf : f a with ⟨text, _ | b⟩ <;> simp [bind, hf])

variable {α β σ : Type} {f : σ → α → Script σ} {row : α → List UInt8} {s : σ} {a : α}
  {as : List α} {status : Nat}

@[simp] theorem pure_eq (a : α) : (pure a : Script α) = ⟨[], .ok a⟩ := rfl

@[simp] theorem mk_ok_bind (text : List UInt8) (a : α) (g : α → Script β) :
    (⟨text, .ok a⟩ : Script α) >>= g = ⟨text ++ (g a).out, (g a).result⟩ := rfl

@[simp] theorem mk_error_bind (text : List UInt8) (status : Nat) (g : α → Script β) :
    (⟨text, .error status⟩ : Script α) >>= g = ⟨text, .error status⟩ := rfl

@[simp] theorem print_bind (text : List UInt8) (g : Unit → Script β) :
    print text >>= g = ⟨text ++ (g ()).out, (g ()).result⟩ := rfl

@[simp] theorem command_zero (text : List UInt8) : command text 0 = print text := rfl

@[simp] theorem exit_bind (status : Nat) (g : α → Script β) :
    (exit status : Script α) >>= g = exit status := rfl

@[simp] theorem checked_zero_bind (a : α) (g : α → Script β) : checked 0 a >>= g = g a := rfl

theorem checked_of_ne (h : status ≠ 0) (a : α) : checked status a = exit status := if_neg h

/-! ## Loops -/

theorem foldlM_ok {I : σ → Prop}
    (hstep : ∀ s a, I s → a ∈ as → ∃ s', I s' ∧ f s a = ⟨row a, .ok s'⟩) (hs : I s) :
    ∃ s', I s' ∧ as.foldlM f s = ⟨as.flatMap row, .ok s'⟩ := by
  induction as generalizing s with
  | nil => exact ⟨s, hs, rfl⟩
  | cons a as ih =>
      rcases hstep s a hs (by simp) with ⟨m, hm, hfirst⟩
      rcases ih (fun t b ht hb => hstep t b ht (by simp [hb])) hm with ⟨s', hs', hrest⟩
      exact ⟨s', hs', by rw [List.foldlM_cons, hfirst, mk_ok_bind, hrest]; rfl⟩

/-- A turn that fails ends the script behind the texts of the turns before it. -/
theorem foldlM_error {I : σ → Prop} {text : List UInt8} (back : List α)
    (hstep : ∀ s a, I s → a ∈ as → ∃ s', I s' ∧ f s a = ⟨row a, .ok s'⟩)
    (hfail : ∀ s, I s → f s a = ⟨text, .error status⟩) (hs : I s) :
    (as ++ a :: back).foldlM f s = ⟨as.flatMap row ++ text, .error status⟩ := by
  rcases foldlM_ok hstep hs with ⟨s', hs', hfront⟩
  rw [List.foldlM_append, hfront, mk_ok_bind, List.foldlM_cons, hfail s' hs']
  rfl

end KernelTrg.Strict
