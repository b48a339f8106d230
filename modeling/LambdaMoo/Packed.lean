import Mathlib.Data.Nat.Count
import Mathlib.Tactic.Ring
import Mathlib.Data.List.Basic

/-!
# Packed lists

A list that holds one entry for each number with a property, in order: the
entry of a number is at the place that counts the numbers with it below.
-/

set_option autoImplicit false

namespace Packed

section Count
variable {p q : ℕ → Prop} [DecidablePred p] [DecidablePred q]

theorem count_congr {n : ℕ} (h : ∀ k, k < n → (p k ↔ q k)) : Nat.count p n = Nat.count q n :=
  le_antisymm (Nat.count_mono_left fun k hk => (h k hk).mp)
    (Nat.count_mono_left fun k hk => (h k hk).mpr)

/-- The counts when one number more has the property. -/
theorem count_insert {idx : ℕ} (hq : ∀ k, q k ↔ p k ∨ k = idx) (hidx : ¬p idx) (i : ℕ) :
    Nat.count q i = Nat.count p i+if idx < i then 1 else 0 := by
  induction i with
  | zero => simp
  | succ i ih =>
    rw [Nat.count_succ, Nat.count_succ, ih]
    by_cases he : i = idx
    · subst he
      simp [hidx, hq]
    · simp only [hq, he, or_false]
      by_cases hlt : idx < i
      · simp only [hlt, show idx < i+1 by omega, if_true]
        ring
      · simp only [hlt, show ¬idx < i+1 by omega, if_false, Nat.add_zero]

theorem count_of_ge {n i : ℕ} (hp : ∀ k, n ≤ k → p k) (hi : n ≤ i) :
    Nat.count p i = Nat.count p n+(i-n) := by
  obtain ⟨d, rfl⟩ := Nat.exists_eq_add_of_le hi
  rw [Nat.count_add, Nat.count_iff_forall.mpr fun k _ => hp (n+k) (by omega)]
  omega

end Count

section Entries
variable {α : Type} {p q : ℕ → Prop} [DecidablePred p] [DecidablePred q]

/-- The entry of a number. -/
def entry (p : ℕ → Prop) [DecidablePred p] (xs : List α) (i : ℕ) : Option α :=
  if p i then xs[Nat.count p i]? else none

theorem entry_isSome {xs : List α} {n i : ℕ} (hl : xs.length = Nat.count p n) (hp : p i)
    (hi : i < n) : Nat.count p i < xs.length := by
  rw [hl]
  exact Nat.count_strict_mono hp hi

theorem entry_set_self {xs : List α} {n i : ℕ} (hl : xs.length = Nat.count p n) (hp : p i)
    (hi : i < n) (v : α) : entry p (xs.set (Nat.count p i) v) i = some v := by
  rw [entry, if_pos hp, List.getElem?_set_self (entry_isSome hl hp hi)]

theorem entry_set_ne (xs : List α) {i j : ℕ} (hp : p i) (h : j ≠ i) (v : α) :
    entry p (xs.set (Nat.count p i) v) j = entry p xs j := by
  by_cases hj : p j
  · rw [entry, entry, if_pos hj, if_pos hj, List.getElem?_set_ne]
    intro he
    exact h (Nat.count_injective hp hj he).symm
  · rw [entry, entry, if_neg hj, if_neg hj]

theorem entry_insert_ne (xs : List α) {idx i : ℕ} (hq : ∀ k, q k ↔ p k ∨ k = idx)
    (hidx : ¬p idx) (h : i ≠ idx) (v : α) :
    entry q (xs.insertIdx (Nat.count p idx) v) i = entry p xs i := by
  by_cases hp : p i
  · rw [entry, entry, if_pos hp, if_pos ((hq i).mpr (.inl hp)), count_insert hq hidx i]
    by_cases hlt : idx < i
    · have hc : Nat.count p idx ≤ Nat.count p i := Nat.count_monotone p (le_of_lt hlt)
      rw [if_pos hlt, List.getElem?_insertIdx_of_gt (by omega), Nat.add_sub_cancel]
    · have hc : Nat.count p i < Nat.count p idx := Nat.count_strict_mono hp (by omega)
      rw [if_neg hlt, Nat.add_zero, List.getElem?_insertIdx_of_lt hc]
  · have hn : ¬q i := by
      rw [hq]
      exact not_or.mpr ⟨hp, h⟩
    rw [entry, entry, if_neg hp, if_neg hn]

theorem insertIdx_append (l r : List α) {k : ℕ} (hk : k ≤ l.length) (a : α) :
    (l++r).insertIdx k a = l.insertIdx k a++r := by
  induction l generalizing k with
  | nil =>
    obtain rfl : k = 0 := Nat.le_zero.mp hk
    rfl
  | cons x l ih =>
    cases k with
    | zero => rfl
    | succ k =>
      rw [List.cons_append, List.insertIdx_succ_cons, List.insertIdx_succ_cons, List.cons_append,
        ih (Nat.succ_le_succ_iff.mp hk)]

/-- The entries of a list that stand at numbers with the property. -/
def pack (p : ℕ → Prop) [DecidablePred p] (xs : List α) : List α :=
  (xs.zipIdx.filter fun x => decide (p x.2)).map Prod.fst

theorem pack_concat (xs : List α) (x : α) :
    pack p (xs++[x]) = pack p xs++if p xs.length then [x] else [] := by
  rw [pack, List.zipIdx_append, List.filter_append, List.map_append]
  by_cases h : p xs.length <;> simp [pack, h]

theorem pack_append (xs ys : List α) :
    pack p (xs++ys) = pack p xs++pack (fun k => p (xs.length+k)) ys := by
  induction ys using List.reverseRecOn with
  | nil => simp [pack]
  | append_singleton ys y ih =>
    rw [← List.append_assoc, pack_concat, pack_concat, ih, List.append_assoc, List.length_append]

theorem length_pack (xs : List α) : (pack p xs).length = Nat.count p xs.length := by
  induction xs using List.reverseRecOn with
  | nil => simp [pack]
  | append_singleton xs x ih =>
    rw [pack_concat, List.length_append, ih, List.length_append, List.length_singleton,
      Nat.count_succ]
    by_cases h : p xs.length <;> simp [h]

theorem entry_pack (xs : List α) (i : ℕ) :
    entry p (pack p xs) i = if p i then xs[i]? else none := by
  by_cases hp : p i
  · rw [entry, if_pos hp, if_pos hp]
    induction xs using List.reverseRecOn with
    | nil => simp [pack]
    | append_singleton xs x ih =>
      rw [pack_concat]
      rcases Nat.lt_trichotomy i xs.length with hi|rfl|hi
      · have hlt : Nat.count p i < (pack p xs).length := by
          rw [length_pack]
          exact Nat.count_strict_mono hp hi
        rw [List.getElem?_append_left hlt, List.getElem?_append_left hi, ih]
      · rw [if_pos hp, List.getElem?_append_right (by rw [length_pack]), length_pack, Nat.sub_self,
          List.getElem?_append_right le_rfl, Nat.sub_self]
      · have hle : Nat.count p (xs.length+1) ≤ Nat.count p i := Nat.count_monotone p hi
        have hb : (pack p xs++if p xs.length then [x] else []).length ≤ Nat.count p i := by
          rw [← pack_concat, length_pack, List.length_append]
          exact hle
        rw [List.getElem?_eq_none hb, List.getElem?_eq_none (by rw [List.length_append]; exact hi)]
  · rw [entry, if_neg hp, if_neg hp]

theorem pack_eq_self {xs : List α} (h : ∀ i, i < xs.length → p i) : pack p xs = xs := by
  induction xs using List.reverseRecOn with
  | nil => rfl
  | append_singleton xs x ih =>
    rw [pack_concat, ih fun i hi => h i (by rw [List.length_append]; omega),
      if_pos (h _ (by simp))]

theorem pack_eq_filter {xs : List α} {f : α → Bool}
    (h : ∀ i x, xs[i]? = some x → (p i ↔ f x = true)) : pack p xs = xs.filter f := by
  induction xs using List.reverseRecOn with
  | nil => rfl
  | append_singleton xs x ih =>
    have hx := h xs.length x (by simp)
    rw [pack_concat, List.filter_append, ih]
    · by_cases hp : p xs.length
      · rw [if_pos hp, List.filter_cons_of_pos (hx.mp hp), List.filter_nil]
      · rw [if_neg hp, List.filter_cons_of_neg (fun hf => hp (hx.mpr hf)), List.filter_nil]
    · intro i y hy
      refine h i y ?_
      rw [List.getElem?_append_left (List.getElem?_eq_some_iff.mp hy).1, hy]

/-- A packed list is the list of its entries. -/
theorem filterMap_entry {xs : List α} {n : ℕ} (hl : Nat.count p n ≤ xs.length) :
    (List.range n).filterMap (entry p xs) = xs.take (Nat.count p n) := by
  induction n with
  | zero => simp
  | succ n ih =>
    have hc := Nat.count_succ p n
    rw [List.range_succ, List.filterMap_append, ih (by omega)]
    by_cases hp : p n
    · rw [if_pos hp] at hc
      have hlt : Nat.count p n < xs.length := by omega
      have he : entry p xs n = some (xs.get ⟨Nat.count p n, hlt⟩) := by
        rw [entry, if_pos hp, List.getElem?_eq_getElem hlt]
        rfl
      rw [hc, List.take_succ_eq_append_getElem hlt]
      simp [he]
    · rw [if_neg hp, Nat.add_zero] at hc
      rw [hc]
      simp [entry, hp]

end Entries

end Packed
