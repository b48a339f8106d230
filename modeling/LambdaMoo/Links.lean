import Mathlib.Data.List.Basic
import Mathlib.Data.List.Nodup

/-!
# Singly linked lists through pointer slots

A list is a head pointer and a next pointer in each cell. A slot is the address
of one of these pointers, as a tail pointer or a cursor of the `T **` kind holds
it. The rules say what assigning through a slot does to the list of cells.
-/

set_option autoImplicit false

namespace LambdaMoo.Linked

variable {α : Type}

inductive Slot (α : Type) where
  | head
  | next (a : α)
  deriving DecidableEq, Repr

structure Links (α : Type) where
  head : Option α
  next : α → Option α

def Links.get (L : Links α) : Slot α → Option α
  | .head => L.head
  | .next a => L.next a

/-- The slot at the end of the cells `l` that start at slot `s`. -/
def final (s : Slot α) : List α → Slot α
  | [] => s
  | a :: l => final (.next a) l

/-- The cells `l` follow each other from slot `s` on. -/
def Path (L : Links α) (s : Slot α) : List α → Prop
  | [] => True
  | a :: l => L.get s = some a ∧ Path L (.next a) l

/-- The whole list: its cells in order, and a null pointer in its final slot. -/
structure Lists (L : Links α) (l : List α) : Prop where
  path : Path L .head l
  stop : L.get (final .head l) = none
  nodup : l.Nodup

theorem final_append (s : Slot α) (l m : List α) : final s (l ++ m) = final (final s l) m := by
  induction l generalizing s with
  | nil => rfl
  | cons a l ih => exact ih _

@[simp]
theorem final_concat (s : Slot α) (l : List α) (a : α) : final s (l ++ [a]) = .next a := by
  rw [final_append]
  rfl

theorem final_mem (s : Slot α) (l : List α) : final s l = s ∨ ∃ a ∈ l, final s l = .next a := by
  induction l generalizing s with
  | nil => exact .inl rfl
  | cons a l ih =>
    right
    rcases ih (.next a) with h | ⟨b, hb, h⟩
    · exact ⟨a, List.mem_cons_self, h⟩
    · exact ⟨b, List.mem_cons_of_mem _ hb, h⟩

theorem final_congr (s t : Slot α) {l : List α} (h : l ≠ []) : final s l = final t l := by
  cases l with
  | nil => exact absurd rfl h
  | cons a l => rfl

theorem final_ne_head {a : α} {l : List α} : final (.next a) l ≠ .head := by
  rcases final_mem (.next a) l with h | ⟨b, -, h⟩ <;> simp [h]

theorem final_head_iff {l : List α} : final .head l = .head ↔ l = [] := by
  cases l with
  | nil => simp [final]
  | cons a l => simp [final, final_ne_head]

theorem path_append (L : Links α) (s : Slot α) (l m : List α) :
    Path L s (l ++ m) ↔ Path L s l ∧ Path L (final s l) m := by
  induction l generalizing s with
  | nil => simp [Path, final]
  | cons a l ih => simp [Path, final, ih, and_assoc]

theorem next_ne_final {l : List α} {a : α} (h : a ∉ l) : Slot.next a ≠ final .head l := by
  intro hs
  rcases final_mem .head l with h0 | ⟨b, hb, h0⟩
  · simp [h0] at hs
  · rw [h0] at hs
    cases hs
    exact h hb

namespace Lists

variable {L : Links α} {l m : List α} {a b : α}

theorem head_eq (h : Lists L l) : L.head = l.head? := by
  cases l with
  | nil => exact h.stop
  | cons a l => exact h.path.1

theorem get_final (h : Lists L (l ++ m)) : L.get (final .head l) = m.head? := by
  have hp := ((path_append L .head l m).mp h.path).2
  cases m with
  | nil => simpa using h.stop
  | cons a m => exact hp.1

theorem next_eq (h : Lists L (l ++ a :: m)) : L.next a = m.head? := by
  rw [List.append_cons] at h
  simpa [Links.get] using h.get_final

theorem next_cons (h : Lists L (a :: m)) : L.next a = m.head? :=
  h.next_eq (l := [])

end Lists

theorem path_of_next {L : Links α} {s : Slot α} {l : List α} (hs : L.get s = l.head?)
    (hn : ∀ k a m, l = k ++ a :: m → L.next a = m.head?) :
    Path L s l ∧ L.get (final s l) = none := by
  induction l generalizing s with
  | nil => exact ⟨trivial, hs⟩
  | cons a l ih =>
    obtain ⟨hp, hf⟩ := ih (s := .next a) (hn [] a l rfl) fun k b m h => hn (a :: k) b m (by simp [h])
    exact ⟨⟨hs, hp⟩, hf⟩

theorem final_not_mem {l : List α} (h : l.Nodup) : ∀ a ∈ l.dropLast, final .head l ≠ .next a := by
  intro a ha hf
  rcases List.eq_nil_or_concat l with rfl | ⟨l, b, rfl⟩
  · simp at ha
  · rw [List.concat_eq_append] at *
    rw [final_concat] at hf
    cases hf
    rw [List.dropLast_concat] at ha
    exact (List.nodup_append.mp h).2.2 a ha a (by simp) rfl

variable [DecidableEq α]

def Links.set (L : Links α) (s : Slot α) (v : Option α) : Links α :=
  match s with
  | .head => { L with head := v }
  | .next a => { L with next := Function.update L.next a v }

@[simp]
theorem get_set_self (L : Links α) (s : Slot α) (v : Option α) : (L.set s v).get s = v := by
  cases s <;> simp [Links.set, Links.get]

theorem get_set_ne (L : Links α) {s t : Slot α} (v : Option α) (h : t ≠ s) :
    (L.set s v).get t = L.get t := by
  cases s with
  | head =>
    cases t with
    | head => exact absurd rfl h
    | next b => rfl
  | next a =>
    cases t with
    | head => rfl
    | next b =>
      have hb : b ≠ a := fun hb => h (hb ▸ rfl)
      simp [Links.set, Links.get, hb]

@[simp]
theorem set_set (L : Links α) (s : Slot α) (v w : Option α) : (L.set s v).set s w = L.set s w := by
  cases s <;> simp [Links.set]

theorem set_comm (L : Links α) {s t : Slot α} (v w : Option α) (h : s ≠ t) :
    (L.set s v).set t w = (L.set t w).set s v := by
  cases s with
  | head =>
    cases t with
    | head => exact absurd rfl h
    | next b => rfl
  | next a =>
    cases t with
    | head => rfl
    | next b =>
      have hb : a ≠ b := fun hb => h (hb ▸ rfl)
      simp [Links.set, Function.update_comm hb]

theorem path_set (L : Links α) {s t : Slot α} {l : List α} (v : Option α) (hs : t ≠ s)
    (hl : ∀ a ∈ l.dropLast, t ≠ .next a) : Path (L.set t v) s l ↔ Path L s l := by
  induction l generalizing s with
  | nil => rfl
  | cons a l ih =>
    simp only [Path, get_set_ne L v hs.symm, and_congr_right_iff]
    intro
    cases l with
    | nil => rfl
    | cons b l =>
      exact ih (hl a (by simp)) fun c hc => hl c (by simp [hc])

/-- Assigning a slot of no cell of the list leaves the list as it is. -/
theorem Lists.set_out {L : Links α} {l : List α} {a : α} (h : Lists L l) (v : Option α)
    (ha : a ∉ l) : Lists (L.set (.next a) v) l := by
  have hne : ∀ b ∈ l, Slot.next a ≠ .next b := by
    intro b hb hab
    cases hab
    exact ha hb
  refine ⟨(path_set L v (by simp) fun b hb => hne b (List.dropLast_subset l hb)).mpr h.path,
    ?_, h.nodup⟩
  rw [get_set_ne, h.stop]
  rcases final_mem .head l with hf | ⟨b, hb, hf⟩
  · simp [hf]
  · rw [hf]
    exact (hne b hb).symm

/-- Assigning the slot behind the cells `l` replaces what follows them. -/
theorem Lists.path_prefix {L : Links α} {l : List α} (h : Path L .head l) (hn : l.Nodup)
    (v : Option α) : Path (L.set (final .head l) v) .head l := by
  cases l with
  | nil => trivial
  | cons a l =>
    exact (path_set L v final_ne_head (final_not_mem hn)).mpr h

theorem Lists.append {L : Links α} {l : List α} {a : α} (h : Lists L l) (ha : a ∉ l) :
    Lists ((L.set (final .head l) (some a)).set (.next a) none) (l ++ [a]) := by
  have hp : Path (L.set (final .head l) (some a)) .head (l ++ [a]) := by
    rw [path_append]
    exact ⟨Lists.path_prefix h.path h.nodup _, get_set_self L _ _, trivial⟩
  refine ⟨?_, by simp, by simp [List.nodup_append, h.nodup]; rintro b hb rfl; exact ha hb⟩
  rw [path_set _ _ (by simp)]
  · exact hp
  · intro b hb hab
    cases hab
    rw [List.dropLast_concat] at hb
    exact ha hb

/-- The last cell is replaced by another one. -/
theorem Lists.replace {L : Links α} {l : List α} {a b : α} (h : Lists L (l ++ [b])) (ha : a ∉ l) :
    Lists ((L.set (final .head l) (some a)).set (.next a) none) (l ++ [a]) := by
  have hn : l.Nodup := h.nodup.sublist (by simp)
  have hp := ((path_append L .head l [b]).mp h.path).1
  refine ⟨?_, by simp, by simp [List.nodup_append, hn]; rintro c hc rfl; exact ha hc⟩
  rw [path_set _ _ (by simp), path_append]
  · exact ⟨Lists.path_prefix hp hn _, get_set_self L _ _, trivial⟩
  · intro c hc hab
    cases hab
    rw [List.dropLast_concat] at hc
    exact ha hc

/-- The head is moved forward past the cells `l`. -/
theorem Lists.skip {L : Links α} {l m : List α} (h : Lists L (l ++ m)) :
    Lists (L.set .head m.head?) m := by
  have hn : m.Nodup := h.nodup.sublist (by simp)
  have hp := ((path_append L .head l m).mp h.path).2
  cases m with
  | nil => exact ⟨trivial, rfl, hn⟩
  | cons a m =>
    refine ⟨⟨rfl, ?_⟩, ?_, hn⟩
    · exact (path_set L _ (by simp) (by simp)).mpr hp.2
    · have hs := h.stop
      rw [final_append] at hs
      show Links.get _ (final (.next a) m) = none
      rw [get_set_ne _ _ final_ne_head]
      exact hs

theorem Lists.remove {L : Links α} {l m : List α} {a : α} (h : Lists L (l ++ a :: m)) :
    Lists (L.set (final .head l) (L.next a)) (l ++ m) := by
  have hp := (path_append L .head l (a :: m)).mp h.path
  have hn : (l ++ m).Nodup := h.nodup.sublist (by simp)
  have hnl : l.Nodup := hn.sublist (by simp)
  have hdisj : ∀ b ∈ m, final .head l ≠ .next b := by
    intro b hb hf
    rcases final_mem .head l with h0 | ⟨c, hc, h0⟩
    · simp [h0] at hf
    · rw [h0] at hf
      cases hf
      exact (List.nodup_append.mp hn).2.2 b hc b hb rfl
  have hna : final .head l ≠ .next a := by
    intro hf
    rcases final_mem .head l with h0 | ⟨c, hc, h0⟩
    · simp [h0] at hf
    · rw [h0] at hf
      cases hf
      exact (List.nodup_append.mp h.nodup).2.2 a hc a (by simp) rfl
  have hstop : L.get (final (.next a) m) = none := by
    have := h.stop
    rwa [final_append] at this
  cases m with
  | nil =>
    refine ⟨by simpa using Lists.path_prefix hp.1 hnl _, ?_, hn⟩
    rw [List.append_nil, get_set_self]
    exact hstop
  | cons b m =>
    refine ⟨(path_append ..).mpr ⟨Lists.path_prefix hp.1 hnl _, ?_, ?_⟩, ?_, hn⟩
    · rw [get_set_self]
      exact hp.2.2.1
    · rw [path_set _ _ (hdisj b (by simp)) fun c hc =>
        hdisj c (List.mem_cons_of_mem _ (List.dropLast_subset m hc))]
      exact hp.2.2.2
    · rw [final_append, get_set_ne]
      · exact hstop
      · intro hf
        rcases final_mem (.next b) m with h0 | ⟨c, hc, h0⟩
        · exact hdisj b (by simp) (hf.symm.trans h0)
        · exact hdisj c (by simp [hc]) (hf.symm.trans h0)

theorem Lists.cons {L : Links α} {l : List α} {a : α} (h : Lists L l) (ha : a ∉ l) :
    Lists ((L.set (.next a) L.head).set .head (some a)) (a :: l) := by
  have h' := h.set_out L.head ha
  refine ⟨⟨rfl, ?_⟩, ?_, List.nodup_cons.mpr ⟨ha, h.nodup⟩⟩
  · cases l with
    | nil => trivial
    | cons b l =>
      refine ⟨?_, ?_⟩
      · simpa [Links.set, Links.get] using h.path.1
      · rw [path_set _ _ (by simp) (by simp)]
        exact h'.path.2
  · show Links.get _ (final (.next a) l) = none
    rw [get_set_ne _ _ final_ne_head]
    cases l with
    | nil => exact (get_set_self L (.next a) L.head).trans h.stop
    | cons b l => exact h'.stop

end LambdaMoo.Linked
