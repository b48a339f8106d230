import Mathlib.Data.Finset.Card
import Mathlib.Data.Set.Finite.Basic
import Mathlib.Logic.Relation

/-!
# Acyclic relations

A relation without cycles into a finite set has a rank. Edges added from one
place make no cycle when none of their ends leads back to it.
-/

set_option autoImplicit false

namespace Acyclic

open Relation

variable {α : Type} {R R' : α → α → Prop}

/-- A measure that every step lowers, below the size of the set for its members. -/
theorem exists_rank (S : Finset α) (hS : ∀ a b, R a b → b ∈ S) (hac : ∀ a, ¬TransGen R a a) :
    ∃ f : α → ℕ, (∀ a b, R a b → f b < f a) ∧ ∀ a ∈ S, f a < S.card := by
  classical
  refine ⟨fun a => (S.filter fun b => TransGen R a b).card, fun a b h => ?_, fun a ha => ?_⟩
  · apply Finset.card_lt_card
    refine ⟨fun c hc => ?_, fun hsub => ?_⟩
    · rw [Finset.mem_filter] at hc ⊢
      exact ⟨hc.1, TransGen.head h hc.2⟩
    · have hb := hsub (Finset.mem_filter.mpr ⟨hS a b h, TransGen.single h⟩)
      exact hac b (Finset.mem_filter.mp hb).2
  · apply Finset.card_lt_card
    refine ⟨Finset.filter_subset _ _, fun hsub => ?_⟩
    exact hac a (Finset.mem_filter.mp (hsub ha)).2

section Add
variable {r : α} {T : α → Prop} (h : ∀ a b, R' a b → R a b ∨ (a = r ∧ T b))
  (hT : ∀ t, T t → ¬ReflTransGen R t r)
include h hT

theorem reaches_of_added {a : α} (ha : ReflTransGen R' a r) : ReflTransGen R a r := by
  induction ha using ReflTransGen.head_induction_on with
  | refl => exact .refl
  | head hab _ ih =>
    rcases h _ _ hab with hr|⟨-, ht⟩
    · exact ReflTransGen.head hr ih
    · exact absurd ih (hT _ ht)

/-- The edges that were added close no cycle. -/
theorem add_edges (hac : ∀ a, ¬TransGen R a a) (a : α) : ¬TransGen R' a a := by
  have split : ∀ b, TransGen R' a b →
      TransGen R a b ∨ (ReflTransGen R' a r ∧ ∃ t, T t ∧ ReflTransGen R' t b) := by
    intro b hb
    induction hb with
    | single hab =>
      rcases h _ _ hab with hr|⟨rfl, ht⟩
      · exact .inl (.single hr)
      · exact .inr ⟨.refl, _, ht, .refl⟩
    | tail hab hbc ih =>
      rcases h _ _ hbc with hr|⟨rfl, ht⟩
      · rcases ih with ih|⟨hr', t, ht, htb⟩
        · exact .inl (ih.tail hr)
        · exact .inr ⟨hr', t, ht, htb.tail hbc⟩
      · exact .inr ⟨hab.to_reflTransGen, _, ht, .refl⟩
  intro hcyc
  rcases split a hcyc with hr|⟨har, t, ht, hta⟩
  · exact hac a hr
  · exact hT t ht (reaches_of_added h hT (hta.trans har))

end Add

section Off
variable {r : α} (h : ∀ a b, a ≠ r → R a b → R' a b)
include h

/-- What leads to a place does not depend on where that place leads. -/
theorem reaches_mono {a : α} (ha : ReflTransGen R a r) : ReflTransGen R' a r := by
  induction ha using ReflTransGen.head_induction_on with
  | refl => exact .refl
  | @head a b hab _ ih =>
    by_cases he : a = r
    · exact he ▸ .refl
    · exact ReflTransGen.head (h a b he hab) ih

theorem reaches_avoiding {a c : α} (ha : ReflTransGen R a c) (hr : ¬ReflTransGen R a r) :
    ReflTransGen R' a c := by
  induction ha using ReflTransGen.head_induction_on with
  | refl => exact .refl
  | @head a b hab _ ih =>
    have he : a ≠ r := fun he => hr (he ▸ .refl)
    exact ReflTransGen.head (h a b he hab) (ih fun hb => hr (ReflTransGen.head hab hb))

end Off

end Acyclic
