import LambdaMoo.Values

/-!
# Computations that do not panic

`Safe x P` says that a computation does not stop the server, and that what it
returns has a property. It may still run into behaviour that C leaves open.
-/

set_option autoImplicit false

namespace LambdaMoo

def Safe {α : Type} (x : Result α) (P : α → Prop) : Prop :=
  match x with
  | .ok a => P a
  | .error (.panic _) => False
  | .error _ => True

namespace Safe
variable {α β : Type} {x : Result α} {P : α → Prop} {Q : β → Prop}

theorem ok {a : α} (h : P a) : Safe (.ok a) P := h

theorem ofEq {a : α} (hx : x = .ok a) (h : P a) : Safe x P := by
  rw [hx]
  exact h

theorem undefined (msg : String) : Safe (.error (.undefined msg) : Result α) P := trivial

theorem result {a : α} (h : Safe x P) (hx : x = .ok a) : P a := by
  rw [hx] at h
  exact h

theorem no_panic (h : Safe x P) (msg : String) : x ≠ .error (.panic msg) := by
  intro hx
  rw [hx] at h
  exact h

theorem imp {P' : α → Prop} (h : Safe x P) (hp : ∀ a, P a → P' a) : Safe x P' := by
  cases x with
  | ok a => exact hp a h
  | error e =>
    cases e with
    | panic m => exact h
    | undefined m => trivial
    | outOfFuel => trivial

theorem bind {f : α → Result β} (h : Safe x P) (hf : ∀ a, P a → Safe (f a) Q) :
    Safe (x >>= f) Q := by
  cases x with
  | ok a => exact hf a h
  | error e =>
    cases e with
    | panic m => exact h
    | undefined m => trivial
    | outOfFuel => trivial

theorem bindEq {f : α → Result β} {a : α} (hx : x = .ok a) (hf : Safe (f a) Q) :
    Safe (x >>= f) Q := by
  rw [hx]
  exact hf

theorem ite {c : Prop} [Decidable c] {y : Result α} (hx : c → Safe x P) (hy : ¬c → Safe y P) :
    Safe (if c then x else y) P := by
  by_cases h : c
  · rw [if_pos h]
    exact hx h
  · rw [if_neg h]
    exact hy h

/-- What every step keeps is kept by a loop over a list. -/
theorem foldlM {γ : Type} {step : α → γ → Result α} (hstep : ∀ a c, P a → Safe (step a c) P)
    {cs : List γ} {a : α} (h : P a) : Safe (cs.foldlM step a) P := by
  induction cs generalizing a with
  | nil => exact h
  | cons c cs ih =>
    rw [List.foldlM_cons]
    exact (hstep a c h).bind fun b hb => ih hb

end Safe
end LambdaMoo
