import Mathlib.Data.List.Nodup
import Mathlib.Data.List.Range
import Mathlib.Logic.Function.Iterate
import Mathlib.Logic.Relation

/-!
# Following links to their end

A link leads from each address to the next one, and the address `nil` ends
it. Two walkers of different speed who start at one place meet again if and only
if the links never end.
-/

set_option autoImplicit false

namespace Chase

variable {α : Type} (nil : α) (link : α → Option α)

/-- The addresses from one on to the end. -/
inductive Trail : α → List α → Prop
  | nil : Trail nil []
  | cons {i j : α} {xs : List α} (hi : link i = some j) (hne : i ≠ nil) (hxs : Trail j xs) :
      Trail i (i::xs)

/-- No address on the way from one leads back to itself. -/
def NoCycle (link : α → Option α) (i : α) : Prop :=
  ∀ j, Relation.ReflTransGen (fun a b => link a = some b) i j →
    ¬Relation.TransGen (fun a b => link a = some b) j j

/-- Whether the faster walker, two steps at a time, comes to where the slower one is. -/
def meets [DecidableEq α] : Nat → α → α → Option Bool
  | 0, _, _ => none
  | fuel+1, slower, faster =>
    if faster = nil then some false
    else do
      let faster ← link faster
      if faster = nil then return false
      else
        let faster ← link faster
        let slower ← link slower
        if faster = slower then return true
        else meets fuel slower faster

variable {nil link}

theorem Trail.unique {i : α} {xs ys : List α} (hx : Trail nil link i xs)
    (hy : Trail nil link i ys) : xs = ys := by
  induction hx generalizing ys with
  | nil =>
    cases hy with
    | nil => rfl
    | cons _ hne _ => exact absurd rfl hne
  | cons hi hne _ ih =>
    cases hy with
    | nil => exact absurd rfl hne
    | cons hi' _ hys =>
      rw [hi, Option.some.injEq] at hi'
      subst hi'
      rw [ih hys]

/-- The faster walker has fewer steps before it, so the two are at different places. -/
theorem meets_false [DecidableEq α] (fuel : Nat) {slower faster : α} {ss fs : List α}
    (hs : Trail nil link slower ss) (hf : Trail nil link faster fs)
    (hle : fs.length ≤ ss.length) (hfuel : fs.length < 2*fuel) :
    meets nil link fuel slower faster = some false := by
  induction fuel generalizing slower faster ss fs with
  | zero => omega
  | succ fuel ih =>
    rw [meets]
    cases hf with
    | nil => rw [if_pos rfl]
    | cons hi hne hf =>
      rw [if_neg hne, hi]
      cases hf with
      | nil => simp
      | @cons _ k _ hj hne' hf =>
        cases hs with
        | nil => simp at hle
        | @cons _ m _ hk _ hs =>
          simp only [List.length_cons] at hle hfuel
          have hkm : k ≠ m := by
            intro h
            have := congrArg List.length ((h ▸ hf : Trail nil link m _).unique hs)
            omega
          simp only [Option.bind_eq_bind, Option.bind_some, hne', if_false, hj, hk]
          rw [if_neg hkm]
          exact ih hs hf (by omega) (by omega)

theorem Trail.rest {i x : α} {xs : List α} (h : Trail nil link i xs) (hx : x ∈ xs) :
    ∃ ys, Trail nil link x ys ∧ ys.length ≤ xs.length := by
  induction h with
  | nil => simp at hx
  | @cons i j xs hi hne hxs ih =>
    rcases List.mem_cons.mp hx with rfl|hx
    · exact ⟨x::xs, .cons hi hne hxs, Nat.le_refl _⟩
    · obtain ⟨ys, hy, hl⟩ := ih hx
      exact ⟨ys, hy, by simp; omega⟩

theorem Trail.nodup {i : α} {xs : List α} (h : Trail nil link i xs) : xs.Nodup := by
  induction h with
  | nil => exact List.nodup_nil
  | @cons i j xs hi hne hxs ih =>
    refine List.nodup_cons.mpr ⟨fun hmem => ?_, ih⟩
    obtain ⟨ys, hy, hl⟩ := hxs.rest hmem
    have := congrArg List.length (hy.unique (.cons hi hne hxs))
    simp only [List.length_cons] at this
    omega

section Alive
variable {alive : α → Prop}

variable (nil link alive) in
/-- Every link of a live address ends there or leads to a live one. -/
def Closed : Prop := ∀ i, alive i → ∃ j, link i = some j ∧ (j = nil ∨ alive j)

/-- Lists of different live addresses are shorter than the fuel. -/
def Fits (alive : α → Prop) (fuel : Nat) : Prop :=
  ∀ xs : List α, xs.Nodup → (∀ x ∈ xs, alive x) → xs.length < fuel

theorem Trail.live (hc : Closed nil link alive) {i : α} {xs : List α} (h : Trail nil link i xs)
    (hi : i = nil ∨ alive i) : ∀ x ∈ xs, alive x := by
  induction h with
  | nil => simp
  | @cons i j xs hl hne hxs ih =>
    have ha := hi.resolve_left hne
    obtain ⟨j', hj', hnext⟩ := hc i ha
    rw [hl, Option.some.injEq] at hj'
    subst hj'
    intro x hx
    rcases List.mem_cons.mp hx with rfl|hx
    · exact ha
    · exact ih hnext x hx

/-- Where the links do not end, they go on for ever. -/
theorem endless (hc : Closed nil link alive) {i : α} (hi : i = nil ∨ alive i)
    (h : ¬∃ xs, Trail nil link i xs) :
    ∃ s : Nat → α, s 0 = i ∧ ∀ k, alive (s k) ∧ s k ≠ nil ∧ link (s k) = some (s (k+1)) := by
  let next : α → α := fun i => (link i).getD nil
  have hstep : ∀ j, (j = nil ∨ alive j) → (¬∃ xs, Trail nil link j xs) →
      alive j ∧ j ≠ nil ∧ link j = some (next j) ∧ (next j = nil ∨ alive (next j)) ∧
        ¬∃ xs, Trail nil link (next j) xs := by
    intro j hj hno
    have hne : j ≠ nil := by
      rintro rfl
      exact hno ⟨[], .nil⟩
    have ha := hj.resolve_left hne
    obtain ⟨k, hk, hlive⟩ := hc j ha
    have hnext : next j = k := by simp [next, hk]
    rw [hnext]
    exact ⟨ha, hne, hk, hlive, fun ⟨xs, hxs⟩ => hno ⟨j::xs, .cons hk hne hxs⟩⟩
  have hall : ∀ k, (next^[k] i = nil ∨ alive (next^[k] i)) ∧
      ¬∃ xs, Trail nil link (next^[k] i) xs := by
    intro k
    induction k with
    | zero => exact ⟨hi, h⟩
    | succ k ih =>
      obtain ⟨-, -, -, hlive, hno⟩ := hstep _ ih.1 ih.2
      rw [Function.iterate_succ_apply']
      exact ⟨hlive, hno⟩
  refine ⟨fun k => next^[k] i, rfl, fun k => ?_⟩
  obtain ⟨ha, hne, hl, -, -⟩ := hstep _ (hall k).1 (hall k).2
  exact ⟨ha, hne, hl.trans (congrArg some (Function.iterate_succ_apply' next k i).symm)⟩

/-- A walk among few addresses comes back to one. -/
theorem repeats {s : Nat → α} {fuel : Nat} (hf : Fits alive fuel) (hs : ∀ k, alive (s k)) :
    ∃ i j, i < j ∧ j < fuel ∧ s i = s j := by
  by_contra hno
  have hinj : ∀ i ∈ List.range fuel, ∀ j ∈ List.range fuel, s i = s j → i = j := by
    intro i hi j hj heq
    rw [List.mem_range] at hi hj
    rcases Nat.lt_trichotomy i j with hlt|rfl|hlt
    · exact absurd ⟨i, j, hlt, hj, heq⟩ hno
    · rfl
    · exact absurd ⟨j, i, hlt, hi, heq.symm⟩ hno
  have hlen := hf _ (List.Nodup.map_on hinj List.nodup_range) fun x hx => by
    obtain ⟨k, -, rfl⟩ := List.mem_map.mp hx
    exact hs k
  simp at hlen

/-- The faster walker has been through the loop some times more than the slower one. -/
theorem double {s : Nat → α} (hs : ∀ k, link (s k) = some (s (k+1))) {i j : Nat} (hlt : i < j)
    (heq : s i = s j) : ∃ k, k < j ∧ s (2*(k+1)) = s (k+1) := by
  have hper : ∀ k, i ≤ k → s (k+(j-i)) = s k := by
    intro k hk
    induction k, hk using Nat.le_induction with
    | base => rw [Nat.add_sub_cancel' (Nat.le_of_lt hlt), heq]
    | succ k _ ih =>
      have hl := hs (k+(j-i))
      rw [ih, hs k, Option.some.injEq] at hl
      rw [hl, Nat.add_right_comm]
  have hmul : ∀ m k, i ≤ k → s (k+m*(j-i)) = s k := by
    intro m
    induction m with
    | zero => simp
    | succ m ih =>
      intro k hk
      rw [Nat.succ_mul, ← Nat.add_assoc, hper _ (by omega), ih k hk]
  have hpos : 0 < j-i := by omega
  have hdiv := Nat.div_add_mod i (j-i)
  have hmod := Nat.mod_lt i hpos
  have hk : (i/(j-i)+1)*(j-i) = i-i%(j-i)+(j-i) := by
    rw [Nat.succ_mul, Nat.mul_comm]
    omega
  refine ⟨(i/(j-i)+1)*(j-i)-1, by omega, ?_⟩
  rw [Nat.sub_add_cancel (by omega), Nat.two_mul]
  exact hmul _ _ (by omega)

theorem Trail.leads (hnil : link nil = none) {i j : α} {xs : List α} (h : Trail nil link i xs)
    (hij : Relation.ReflTransGen (fun a b => link a = some b) i j) : ∃ ys, Trail nil link j ys := by
  induction hij with
  | refl => exact ⟨xs, h⟩
  | tail _ hl ih =>
    obtain ⟨ys, hy⟩ := ih
    cases hy with
    | nil =>
      rw [hnil] at hl
      cases hl
    | cons hi _ hys =>
      rw [hi, Option.some.injEq] at hl
      exact ⟨_, hl ▸ hys⟩

theorem Trail.shorter (hnil : link nil = none) {i j : α} {xs : List α} (h : Trail nil link i xs)
    (hij : Relation.TransGen (fun a b => link a = some b) i j) :
    ∃ ys, Trail nil link j ys ∧ ys.length < xs.length := by
  have hstep : ∀ {a b : α} {zs : List α}, Trail nil link a zs → link a = some b →
      ∃ ys, Trail nil link b ys ∧ ys.length < zs.length := by
    intro a b zs hz hl
    cases hz with
    | nil =>
      rw [hnil] at hl
      cases hl
    | cons hi _ hys =>
      rw [hi, Option.some.injEq] at hl
      exact ⟨_, hl ▸ hys, by simp⟩
  induction hij with
  | single hl => exact hstep h hl
  | tail _ hl ih =>
    obtain ⟨ys, hy, hlt⟩ := ih
    obtain ⟨zs, hz, hlt'⟩ := hstep hy hl
    exact ⟨zs, hz, by omega⟩

/-- Among few addresses the links from one end if and only if they have no cycle. -/
theorem ends_iff {fuel : Nat} (hnil : link nil = none) (hc : Closed nil link alive)
    (hf : Fits alive fuel) {i : α} (hi : i = nil ∨ alive i) :
    (∃ xs, Trail nil link i xs) ↔ NoCycle link i := by
  constructor
  · rintro ⟨xs, hx⟩ j hij hjj
    obtain ⟨ys, hy⟩ := hx.leads hnil hij
    obtain ⟨zs, hz, hlt⟩ := hy.shorter hnil hjj
    rw [hz.unique hy] at hlt
    exact Nat.lt_irrefl _ hlt
  · intro h
    by_contra hno
    obtain ⟨s, rfl, hs⟩ := endless hc hi hno
    have hreach : ∀ k, Relation.ReflTransGen (fun a b => link a = some b) (s 0) (s k) := by
      intro k
      induction k with
      | zero => exact .refl
      | succ k ih => exact ih.tail (hs k).2.2
    obtain ⟨a, b, hlt, -, heq⟩ := repeats hf fun k => (hs k).1
    have hloop : ∀ k, Relation.TransGen (fun a b => link a = some b) (s a) (s (a+k+1)) := by
      intro k
      induction k with
      | zero => exact .single (hs a).2.2
      | succ k ih => exact ih.tail (hs _).2.2
    apply h (s a) (hreach a)
    have := hloop (b-a-1)
    rwa [show a+(b-a-1)+1 = b by omega, ← heq] at this

theorem meets_true [DecidableEq α] {s : Nat → α}
    (hs : ∀ k, s k ≠ nil ∧ link (s k) = some (s (k+1))) {k : Nat} {fuel m : Nat}
    (hk : s (2*(m+k+1)) = s (m+k+1)) (hfuel : k < fuel) :
    meets nil link fuel (s m) (s (2*m)) = some true := by
  induction k generalizing fuel m with
  | zero =>
    cases fuel with
    | zero => omega
    | succ fuel =>
      rw [meets, if_neg (hs _).1, (hs _).2]
      simp only [Option.bind_eq_bind, Option.bind_some, (hs _).1, if_false, (hs _).2]
      rw [if_pos (show s (2*m+1+1) = s (m+1) from hk)]
      rfl
  | succ k ih =>
    cases fuel with
    | zero => omega
    | succ fuel =>
      rw [meets, if_neg (hs _).1, (hs _).2]
      simp only [Option.bind_eq_bind, Option.bind_some, (hs _).1, if_false, (hs _).2]
      split
      · rfl
      · refine ih (m := m+1) ?_ (by omega)
        rwa [show m+1+k+1 = m+(k+1)+1 by omega]

/-- The two walkers stop, and they have met if and only if the links do not end. -/
theorem meets_iff [DecidableEq α] {fuel : Nat} (hc : Closed nil link alive) (hf : Fits alive fuel)
    {i : α} (hi : i = nil ∨ alive i) :
    ∃ b, meets nil link fuel i i = some b ∧ (b = true ↔ ¬∃ xs, Trail nil link i xs) := by
  by_cases h : ∃ xs, Trail nil link i xs
  · obtain ⟨xs, hx⟩ := h
    have hl := hf xs hx.nodup (hx.live hc hi)
    refine ⟨false, meets_false fuel hx hx (Nat.le_refl _) (by omega), ?_⟩
    simp only [Bool.false_eq_true, false_iff, Classical.not_not]
    exact ⟨xs, hx⟩
  · obtain ⟨s, rfl, hs⟩ := endless hc hi h
    obtain ⟨a, b, hlt, hb, heq⟩ := repeats hf fun k => (hs k).1
    obtain ⟨k, hk, heq⟩ := double (fun k => (hs k).2.2) hlt heq
    refine ⟨true, ?_, by simpa using h⟩
    exact meets_true (m := 0) (k := k) (fun k => (hs k).2) (by simpa using heq) (by omega)

end Alive

end Chase
