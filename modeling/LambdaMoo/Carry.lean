import Mathlib.Data.List.Nodup
import Mathlib.Data.List.Perm.Basic
import Mathlib.Data.List.ReduceOption
import LambdaMoo.Packed

/-!
# Carrying values from one list of keys to another

Each key of the new list is looked for in what is left of the old one; what
stands before the place where it is found is let go. When the keys that are in
both lists stand in one order, every value arrives at its key.
-/

set_option autoImplicit false

namespace Carry

variable {κ β : Type} [DecidableEq κ]

/-- The values that arrive at the new keys, and those that are let go. -/
def carry : List κ → List (κ × Option β) → List (Option β) × List β
  | [], a => ([], a.filterMap (·.2))
  | b::bs, a =>
    match a.findIdx? (·.1 = b) with
    | none => (none::(carry bs a).1, (carry bs a).2)
    | some k => ((a[k]?.bind (·.2))::(carry bs (a.drop (k+1))).1,
        (a.take k).filterMap (·.2)++(carry bs (a.drop (k+1))).2)

def lookup (b : κ) (a : List (κ × Option β)) : Option β := (a.find? (·.1 = b)).bind (·.2)

/-- The keys that are in both lists stand in one order. -/
def SameOrder (a b : List κ) : Prop := a.filter (· ∈ b) = b.filter (· ∈ a)

instance (a b : List κ) : Decidable (SameOrder a b) := inferInstanceAs (Decidable (_ = _))

theorem carry_absent {b : κ} (bs : List κ) {a : List (κ × Option β)} (h : b ∉ a.map Prod.fst) :
    carry (b::bs) a = (none::(carry bs a).1, (carry bs a).2) := by
  have hn : a.findIdx? (·.1 = b) = none := by
    rw [List.findIdx?_eq_none_iff]
    intro x hx
    simp only [decide_eq_false_iff_not]
    rintro rfl
    exact h (List.mem_map_of_mem hx)
  rw [carry, hn]

theorem carry_found {b : κ} (bs : List κ) {l r : List (κ × Option β)} (v : Option β)
    (h : b ∉ l.map Prod.fst) :
    carry (b::bs) (l++(b, v)::r) = (v::(carry bs r).1, l.filterMap (·.2)++(carry bs r).2) := by
  have hn : (l++(b, v)::r).findIdx? (·.1 = b) = some l.length := by
    rw [List.findIdx?_append, List.findIdx?_eq_none_iff.mpr, List.findIdx?_cons]
    · simp
    · intro x hx
      simp only [decide_eq_false_iff_not]
      rintro rfl
      exact h (List.mem_map_of_mem hx)
  have hd : (l++(b, v)::r).drop (l.length+1) = r := by
    rw [List.drop_append, List.drop_eq_nil_of_le (Nat.le_succ _), List.nil_append,
      Nat.add_sub_cancel_left]
    rfl
  rw [carry, hn]
  simp [hd]

theorem split_at_key {b : κ} {a : List (κ × Option β)} (h : b ∈ a.map Prod.fst) :
    ∃ l v r, a = l++(b, v)::r ∧ b ∉ l.map Prod.fst := by
  induction a with
  | nil => cases h
  | cons x a ih =>
    by_cases hx : x.1 = b
    · exact ⟨[], x.2, a, by rw [← hx]; rfl, by simp⟩
    · rw [List.map_cons, List.mem_cons] at h
      obtain ⟨l, v, r, rfl, hl⟩ := ih (h.resolve_left fun he => hx he.symm)
      refine ⟨x::l, v, r, rfl, ?_⟩
      rw [List.map_cons, List.mem_cons, not_or]
      exact ⟨fun he => hx he.symm, hl⟩

/-- Nothing is lost and nothing is kept twice, whatever the order. -/
theorem carry_perm (bs : List κ) (a : List (κ × Option β)) :
    ((carry bs a).1.reduceOption++(carry bs a).2).Perm (a.filterMap (·.2)) := by
  induction bs generalizing a with
  | nil => simp [carry]
  | cons b bs ih =>
    by_cases hb : b ∈ a.map Prod.fst
    · obtain ⟨l, v, r, rfl, hl⟩ := split_at_key hb
      rw [carry_found bs v hl]
      have hr := ih r
      rw [List.filterMap_append, List.filterMap_cons]
      cases v with
      | none =>
        rw [List.reduceOption_cons_of_none, ← List.append_assoc]
        exact (List.perm_append_comm.append_right _).trans
          (by rw [List.append_assoc]; exact hr.append_left _)
      | some v =>
        rw [List.reduceOption_cons_of_some, List.cons_append, ← List.append_assoc]
        refine .trans ?_ List.perm_middle.symm
        refine .cons _ ((List.perm_append_comm.append_right _).trans ?_)
        rw [List.append_assoc]
        exact hr.append_left _
    · rw [carry_absent bs hb]
      exact ih a

section Order
variable {b : κ} {bs : List κ} {l r : List (κ × Option β)} {v : Option β}

theorem SameOrder.absent {as : List κ} (h : SameOrder as (b::bs)) (hb : b ∉ as) :
    SameOrder as bs := by
  rw [SameOrder, List.filter_cons_of_neg (by simpa using hb)] at h
  rw [SameOrder, ← h]
  apply List.filter_congr
  intro x hx
  have : x ≠ b := fun he => hb (he ▸ hx)
  simp [this]

/-- Up to the first key of the new list, no key of the old list is in the new one. -/
theorem SameOrder.before {as cs : List κ} (h : SameOrder (as++b::cs) (b::bs)) (hb : b ∉ as) :
    ∀ x ∈ as, x ∉ b::bs := by
  rw [SameOrder, List.filter_append, List.filter_cons_of_pos (p := fun x => decide (x ∈ b::bs))
    (by simp), List.filter_cons_of_pos (a := b) (by simp)] at h
  cases hf : as.filter (· ∈ b::bs) with
  | nil =>
    intro x hx
    simpa using List.filter_eq_nil_iff.mp hf x hx
  | cons y ys =>
    rw [hf, List.cons_append] at h
    have hy : y ∈ as.filter (· ∈ b::bs) := by rw [hf]; exact List.mem_cons_self
    rw [(List.cons.inj h).1] at hy
    exact absurd (List.mem_filter.mp hy).1 hb

theorem SameOrder.after {as cs : List κ} (h : SameOrder (as++b::cs) (b::bs)) (hb : b ∉ as)
    (hc : b ∉ cs) (hbs : b ∉ bs) : SameOrder cs bs := by
  have hno := h.before hb
  have hf : as.filter (· ∈ b::bs) = [] :=
    List.filter_eq_nil_iff.mpr fun x hx => by simpa using hno x hx
  rw [SameOrder, List.filter_append, hf, List.nil_append,
    List.filter_cons_of_pos (p := fun x => decide (x ∈ b::bs)) (by simp),
    List.filter_cons_of_pos (a := b) (by simp)] at h
  have ht := (List.cons.inj h).2
  rw [SameOrder]
  calc cs.filter (· ∈ bs)
      = cs.filter (· ∈ b::bs) := by
        apply List.filter_congr
        intro x hx
        have : x ≠ b := fun he => hc (he ▸ hx)
        simp [this]
    _ = bs.filter (· ∈ as++b::cs) := ht
    _ = bs.filter (· ∈ cs) := by
        apply List.filter_congr
        intro x hx
        have h1 : x ≠ b := fun he => hbs (he ▸ hx)
        have h2 : x ∉ as := fun ha => hno x ha (List.mem_cons_of_mem b hx)
        simp [h1, h2]

theorem lookup_absent {a : List (κ × Option β)} (h : b ∉ a.map Prod.fst) : lookup b a = none := by
  have : a.find? (·.1 = b) = none := by
    rw [List.find?_eq_none]
    intro x hx he
    exact h (by rw [← of_decide_eq_true he]; exact List.mem_map_of_mem hx)
  rw [lookup, this]
  rfl

theorem lookup_append (h : b ∉ l.map Prod.fst) : lookup b (l++r) = lookup b r := by
  have : l.find? (·.1 = b) = none := by
    rw [List.find?_eq_none]
    intro x hx he
    exact h (by rw [← of_decide_eq_true he]; exact List.mem_map_of_mem hx)
  rw [lookup, lookup, List.find?_append, this]
  rfl

theorem lookup_mem {a : List (κ × Option β)} (hn : (a.map Prod.fst).Nodup) (h : (b, v) ∈ a) :
    lookup b a = v := by
  obtain ⟨l, r, rfl⟩ := List.append_of_mem h
  rw [List.map_append, List.map_cons] at hn
  have hl : b ∉ l.map Prod.fst := fun hc =>
    (List.nodup_append.mp hn).2.2 b hc b List.mem_cons_self rfl
  rw [lookup_append hl, lookup, List.find?_cons_of_pos (by simp)]
  rfl

end Order

/-- In one order, every new key gets the value it had and the values of all others are let go. -/
theorem carry_eq {bs : List κ} {a : List (κ × Option β)} (hb : bs.Nodup)
    (ha : (a.map Prod.fst).Nodup) (h : SameOrder (a.map Prod.fst) bs) :
    carry bs a = (bs.map (lookup · a), (a.filter (·.1 ∉ bs)).filterMap (·.2)) := by
  induction bs generalizing a with
  | nil => simp [carry]
  | cons b bs ih =>
    obtain ⟨hbn, hbs⟩ := List.nodup_cons.mp hb
    by_cases hm : b ∈ a.map Prod.fst
    · obtain ⟨l, v, r, rfl, hl⟩ := split_at_key hm
      rw [List.map_append, List.map_cons] at ha h
      obtain ⟨-, hcr, hdis⟩ := List.nodup_append.mp ha
      obtain ⟨hr, hnr⟩ := List.nodup_cons.mp hcr
      have hno := h.before hl
      have hself : lookup b (l++(b, v)::r) = v := by
        rw [lookup_append hl, lookup, List.find?_cons_of_pos (by simp)]
        rfl
      have hrest : ∀ x ∈ bs, lookup x (l++(b, v)::r) = lookup x r := by
        intro x hx
        have hxl : x ∉ l.map Prod.fst := fun hc => hno x hc (List.mem_cons_of_mem b hx)
        have hxb : ¬b = x := fun he => hbn (he ▸ hx)
        rw [lookup_append hxl, lookup, List.find?_cons_of_neg (by simpa using hxb), lookup]
      have hgone : l.filter (·.1 ∉ b::bs) = l :=
        List.filter_eq_self.mpr fun x hx => by
          simpa using hno x.1 (List.mem_map_of_mem hx)
      have hkeep : r.filter (·.1 ∉ b::bs) = r.filter (·.1 ∉ bs) := by
        apply List.filter_congr
        intro x hx
        have : x.1 ≠ b := by
          rintro rfl
          exact hr (List.mem_map.mpr ⟨x, hx, rfl⟩)
        simp [this]
      rw [carry_found bs v hl, ih hbs hnr (h.after hl hr hbn), List.map_cons, hself,
        List.map_congr_left hrest, List.filter_append, hgone,
        List.filter_cons_of_neg (by simp), hkeep, List.filterMap_append]
    · have hkeep : a.filter (·.1 ∉ b::bs) = a.filter (·.1 ∉ bs) := by
        apply List.filter_congr
        intro x hx
        have : x.1 ≠ b := by
          rintro rfl
          exact hm (List.mem_map_of_mem hx)
        simp [this]
      rw [carry_absent bs hm, ih hbs ha (h.absent hm), List.map_cons, lookup_absent hm, hkeep]

end Carry
