import Mathlib.Logic.Basic

/-!
# Computations that can fail

Rules for `Except`: `bind_eq_ok` takes a computation apart that has succeeded. `Outcome` says of a
computation what holds if it succeeds and what holds if it fails, with a rule for sequences and one
for loops (`outcome_foldlM`), in which the invariant depends on what has been read so far.
-/

namespace Memlog.Lib

variable {ε α β ι : Type}

theorem bind_eq_ok {x : Except ε α} {f : α → Except ε β} {b : β} (h : (x >>= f) = .ok b) :
    ∃ a, x = .ok a ∧ f a = .ok b := by
  cases x with
  | ok a => exact ⟨a, rfl, h⟩
  | error e => cases h

/-- The computation succeeds with a result that satisfies `P`, or it fails and `Q` holds. -/
def Outcome (x : Except ε α) (P : α → Prop) (Q : Prop) : Prop :=
  match x with
  | .ok a => P a
  | .error _ => Q

theorem Outcome.bind {x : Except ε α} {f : α → Except ε β} {P : α → Prop} {Q : Prop} {P' : β → Prop}
    {Q' : Prop} (h : Outcome x P Q) (hf : ∀ a, P a → Outcome (f a) P' Q') (hQ : Q → Q') :
    Outcome (x >>= f) P' Q' := by
  cases x with
  | ok a => exact hf a h
  | error e => exact hQ h

theorem Outcome.imp {x : Except ε α} {P P' : α → Prop} {Q Q' : Prop} (h : Outcome x P Q)
    (hP : ∀ a, P a → P' a) (hQ : Q → Q') : Outcome x P' Q' := by
  cases x with
  | ok a => exact hP a h
  | error e => exact hQ h

/-- **Loops**: an invariant over what has been read holds at the end, and a failure is one of the
whole list. -/
theorem outcome_foldlM {f : α → ι → Except ε α} {I : List ι → α → Prop} {Q : List ι → Prop}
    (hstep : ∀ before i a, I before a → Outcome (f a i) (I (before ++ [i])) (Q (before ++ [i])))
    (hmono : ∀ before more, Q before → Q (before ++ more)) (before l : List ι) {a : α}
    (h : I before a) : Outcome (l.foldlM f a) (I (before ++ l)) (Q (before ++ l)) := by
  induction l generalizing before a with
  | nil =>
    rw [List.append_nil]
    exact h
  | cons i l ih =>
    have hassoc : before ++ i :: l = before ++ [i] ++ l := by simp
    rw [List.foldlM_cons, hassoc]
    exact (hstep before i a h).bind (fun a' ha' => ih _ ha') fun hQ => hmono _ _ hQ

end Memlog.Lib
