import Mathlib.Data.List.Count

/-!
# Lists shared by reference

A memory of lists, each with the number of the references to it. A list is
extended in place when the reference through which it is extended is the only
one, and copied otherwise. `Counted` says what references there are; a change
through one of them leaves what the others see as it was.
-/

set_option autoImplicit false

namespace LambdaMoo.Shared

variable {α : Type}

structure Cell (α : Type) where
  refs : ℕ
  elems : List α

/-- A new cell gets the address `next`. -/
structure Memory (α : Type) where
  cells : ℕ → Option (Cell α)
  next : ℕ

namespace Memory

def set (m : Memory α) (p : ℕ) (c : Option (Cell α)) : Memory α :=
  { m with cells := Function.update m.cells p c }

def refs (m : Memory α) (p : ℕ) : ℕ := (m.cells p).elim 0 Cell.refs

def value (m : Memory α) (p : ℕ) : Option (List α) := (m.cells p).map Cell.elems

/-- One reference more. -/
def ref (m : Memory α) (p : ℕ) : Memory α :=
  m.set p ((m.cells p).map fun c => { c with refs := c.refs+1 })

/-- One reference less; the last one takes the list with it. -/
def free (m : Memory α) (p : ℕ) : Memory α :=
  m.set p ((m.cells p).bind fun c => if c.refs ≤ 1 then none else some { c with refs := c.refs-1 })

def alloc (m : Memory α) (xs : List α) : ℕ × Memory α :=
  (m.next, ⟨Function.update m.cells m.next (some ⟨1, xs⟩), m.next+1⟩)

/-- Rewrites a list in place. -/
def store (m : Memory α) (p : ℕ) (f : List α → List α) : Memory α :=
  m.set p ((m.cells p).map fun c => { c with elems := f c.elems })

/-- Replaces a reference by one to a new list. -/
def replace (m : Memory α) (p : ℕ) (xs : List α) : ℕ × Memory α :=
  ((m.alloc xs).1, (m.alloc xs).2.free p)

def append (m : Memory α) (p : ℕ) (x : α) : ℕ × Memory α :=
  if m.refs p = 1 then (p, m.store p (· ++ [x]))
  else m.replace p (((m.value p).getD []) ++ [x])

end Memory

/-- The references that there are. -/
structure Counted (m : Memory α) (ps : List ℕ) : Prop where
  count : ∀ p, m.refs p = ps.count p
  live : ∀ p, (m.cells p).isSome = true → 0 < m.refs p ∧ p < m.next

namespace Counted
open Memory

variable {m : Memory α} {p : ℕ} {ps : List ℕ}

theorem perm {ps' : List ℕ} (h : Counted m ps) (hp : ps.Perm ps') : Counted m ps' :=
  ⟨fun q => (h.count q).trans (hp.count_eq q), h.live⟩

theorem cell (h : Counted m ps) (hp : p ∈ ps) : ∃ c, m.cells p = some c ∧ c.refs = ps.count p := by
  have hc := h.count p
  have hpos := List.count_pos_iff.mpr hp
  rw [refs] at hc
  cases hcell : m.cells p with
  | none =>
    rw [hcell, Option.elim_none] at hc
    omega
  | some c =>
    rw [hcell] at hc
    exact ⟨c, rfl, hc⟩

theorem fresh (h : Counted m ps) : m.cells m.next = none := by
  cases hc : m.cells m.next with
  | none => rfl
  | some c =>
    have := (h.live m.next (by simp [hc])).2
    omega

theorem refs_set (m : Memory α) (p q : ℕ) (c : Option (Cell α)) :
    (m.set p c).refs q = if q = p then c.elim 0 Cell.refs else m.refs q := by
  by_cases hq : q = p
  · subst hq
    simp [Memory.refs, Memory.set]
  · simp [Memory.refs, Memory.set, hq]

theorem value_set_ne (m : Memory α) {p q : ℕ} (hq : q ≠ p) (c : Option (Cell α)) :
    (m.set p c).value q = m.value q := by
  simp [Memory.value, Memory.set, hq]

theorem ref (h : Counted m ps) (hp : p ∈ ps) :
    Counted (m.ref p) (p::ps) ∧ ∀ q, (m.ref p).value q = m.value q := by
  obtain ⟨c, hc, hrefs⟩ := h.cell hp
  refine ⟨⟨?_, ?_⟩, ?_⟩
  · intro q
    rw [Memory.ref, refs_set]
    by_cases hq : q = p
    · subst hq
      simp [hc, hrefs]
    · rw [if_neg hq, h.count, List.count_cons_of_ne (Ne.symm hq)]
  · intro q hq
    rw [Memory.ref, refs_set]
    by_cases hqp : q = p
    · subst hqp
      have := (h.live q (by simp [hc])).2
      simp [hc, Memory.set, this]
    · rw [if_neg hqp]
      exact h.live q (by simpa [Memory.ref, Memory.set, hqp] using hq)
  · intro q
    by_cases hq : q = p
    · subst hq
      simp [Memory.value, Memory.ref, Memory.set, hc]
    · exact value_set_ne m hq _

theorem free (h : Counted m (p::ps)) :
    Counted (m.free p) ps ∧ ∀ q ∈ ps, (m.free p).value q = m.value q := by
  obtain ⟨c, hc, hrefs⟩ := h.cell (p := p) List.mem_cons_self
  rw [List.count_cons_self] at hrefs
  have hset : m.free p = m.set p (if c.refs ≤ 1 then none else some { c with refs := c.refs-1 }) := by
    rw [Memory.free, hc, Option.bind_some]
  refine ⟨⟨?_, ?_⟩, ?_⟩
  · intro q
    rw [hset, refs_set]
    by_cases hq : q = p
    · subst hq
      rw [if_pos rfl]
      split
      · simp
        omega
      · simp
        omega
    · rw [if_neg hq, h.count, List.count_cons_of_ne (Ne.symm hq)]
  · intro q hq
    rw [hset] at hq ⊢
    rw [refs_set]
    by_cases hqp : q = p
    · subst hqp
      have hlt := (h.live q (by simp [hc])).2
      rw [if_pos rfl]
      by_cases hle : c.refs ≤ 1
      · simp [hle, Memory.set] at hq
      · simp only [hle, if_false, Option.elim_some]
        exact ⟨by omega, hlt⟩
    · rw [if_neg hqp]
      exact h.live q (by simpa [Memory.set, hqp] using hq)
  · intro q hq
    rw [hset]
    by_cases hqp : q = p
    · subst hqp
      have hpos := List.count_pos_iff.mpr hq
      rw [if_neg (by omega)]
      simp [Memory.value, Memory.set, hc]
    · exact value_set_ne m hqp _

theorem alloc (h : Counted m ps) (xs : List α) :
    Counted (m.alloc xs).2 ((m.alloc xs).1::ps) ∧
      (m.alloc xs).2.value (m.alloc xs).1 = some xs ∧ m.next ∉ ps ∧
      ∀ q ∈ ps, (m.alloc xs).2.value q = m.value q := by
  have hfresh := h.fresh
  have hnot : m.next ∉ ps := by
    intro hmem
    obtain ⟨c, hc, -⟩ := h.cell hmem
    rw [hfresh] at hc
    cases hc
  refine ⟨⟨?_, ?_⟩, ?_, hnot, ?_⟩
  · intro q
    by_cases hq : q = m.next
    · subst hq
      simp [Memory.alloc, Memory.refs, List.count_eq_zero_of_not_mem hnot]
    · rw [Memory.alloc, List.count_cons_of_ne (Ne.symm hq), ← h.count]
      simp [Memory.refs, hq]
  · intro q hq
    by_cases hqn : q = m.next
    · subst hqn
      simp [Memory.alloc, Memory.refs]
    · have hlive := h.live q (by simpa [Memory.alloc, hqn] using hq)
      refine ⟨by simpa [Memory.alloc, Memory.refs, hqn] using hlive.1, ?_⟩
      exact Nat.lt_succ_of_lt hlive.2
  · simp [Memory.alloc, Memory.value]
  · intro q hq
    have hqn : q ≠ m.next := fun heq => hnot (heq ▸ hq)
    simp [Memory.alloc, Memory.value, hqn]

/-- One reference is given a new list, and the others see what they saw. -/
structure Changed (m : Memory α) (ps : List ℕ) (r : ℕ × Memory α) (xs : List α) : Prop where
  counted : Counted r.2 (r.1::ps)
  value : r.2.value r.1 = some xs
  others : ∀ q ∈ ps, r.2.value q = m.value q

theorem replace (h : Counted m (p::ps)) (xs : List α) : Changed m ps (m.replace p xs) xs := by
  obtain ⟨hc, hv, hnot, hothers⟩ := h.alloc xs
  have hswap : Counted (m.alloc xs).2 (p::(m.alloc xs).1::ps) := hc.perm (.swap _ _ _)
  obtain ⟨hf, hkeep⟩ := hswap.free
  refine ⟨hf, ?_, ?_⟩
  · exact (hkeep _ List.mem_cons_self).trans hv
  · intro q hq
    exact (hkeep q (List.mem_cons_of_mem _ hq)).trans (hothers q (List.mem_cons_of_mem _ hq))

theorem store (h : Counted m (p::ps)) (f : List α → List α) :
    Counted (m.store p f) (p::ps) ∧ (m.store p f).value p = (m.value p).map f ∧
      ∀ q, q ≠ p → (m.store p f).value q = m.value q := by
  obtain ⟨c, hc, -⟩ := h.cell (p := p) List.mem_cons_self
  have hrefs : ∀ q, (m.store p f).refs q = m.refs q := by
    intro q
    rw [Memory.store, refs_set]
    by_cases hq : q = p
    · subst hq
      simp [Memory.refs, hc]
    · rw [if_neg hq]
  refine ⟨⟨?_, ?_⟩, ?_, ?_⟩
  · intro q
    rw [hrefs, h.count]
  · intro q hq
    rw [hrefs]
    by_cases hqp : q = p
    · subst hqp
      exact h.live q (by simp [hc])
    · exact h.live q (by simpa [Memory.store, Memory.set, hqp] using hq)
  · simp [Memory.value, Memory.store, Memory.set, hc]
  · intro q hq
    exact value_set_ne m hq _

/-- A reference that is the only one to its list. -/
theorem not_mem_of_refs (h : Counted m (p::ps)) (h1 : m.refs p = 1) : p ∉ ps := by
  have hc := h.count p
  rw [h1, List.count_cons_self] at hc
  exact List.count_eq_zero.mp (by omega)

theorem append (h : Counted m (p::ps)) {xs : List α} (hv : m.value p = some xs) (x : α) :
    Changed m ps (m.append p x) (xs ++ [x]) := by
  rw [Memory.append]
  by_cases h1 : m.refs p = 1
  · rw [if_pos h1]
    obtain ⟨hc, hval, hothers⟩ := h.store (· ++ [x])
    have hnot := h.not_mem_of_refs h1
    refine ⟨hc, ?_, ?_⟩
    · rw [hval, hv]
      rfl
    · intro q hq
      exact hothers q fun heq => hnot (heq ▸ hq)
  · rw [if_neg h1, hv]
    exact h.replace _

end Counted
end LambdaMoo.Shared
