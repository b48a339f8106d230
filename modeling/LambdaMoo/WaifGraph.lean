import LambdaMoo.Acyclic
import LambdaMoo.WaifAccess

/-!
# What waifs hold

Values hold the elements of lists and the stored values of waifs. Writing a
property is refused where the waif could be reached from the value, which
keeps the waifs free of cycles; this is why the search for it ends.
-/

set_option autoImplicit false

namespace LambdaMoo.Database

open Relation

mutual
/-- The values in a value that are no lists. -/
def leaves : Var → List Var
  | .list l => leavesAll l
  | v => [v]
def leavesAll : List Var → List Var
  | [] => []
  | v::vs => leaves v++leavesAll vs
end

namespace World

/-- A value holds another directly. -/
inductive Holds (s : World) : Var → Var → Prop
  | list {l : List Var} {u : Var} : u ∈ l → Holds s (.list l) u
  | waif {w : WaifRef} {waif : Waif} {u : Var} :
      s.waifs w = some waif → u ∈ waif.propvals → Holds s (.waif w) u

def Reaches (s : World) : Var → Var → Prop := ReflTransGen s.Holds

/-- No value holds itself, however far down. -/
def NoCycle (s : World) : Prop := ∀ v, ¬TransGen s.Holds v v

end World

theorem mem_leavesAll {u : Var} {vs : List Var} :
    u ∈ leavesAll vs ↔ ∃ v ∈ vs, u ∈ leaves v := by
  induction vs with
  | nil => simp [leavesAll]
  | cons v vs ih => simp [leavesAll, ih]

section Leaves
variable (s : World)

mutual
theorem reaches_leaf : ∀ (v : Var) {u : Var}, u ∈ leaves v → s.Reaches v u
  | .list l, u, h => by
    obtain ⟨v, hv, hr⟩ := reaches_leafAll l h
    exact ReflTransGen.head (.list hv) hr
  | .int _, u, h | .obj _, u, h | .str _, u, h | .err _, u, h | .clear, u, h | .none, u, h
  | .catch _, u, h | .finally _, u, h | .float _, u, h | .waif _, u, h => by
    rw [List.mem_singleton.mp h]
    exact .refl
theorem reaches_leafAll : ∀ (vs : List Var) {u : Var}, u ∈ leavesAll vs →
    ∃ v ∈ vs, s.Reaches v u
  | [], u, h => by simp [leavesAll] at h
  | v::vs, u, h => by
    rcases List.mem_append.mp h with h|h
    · exact ⟨v, by simp, reaches_leaf v h⟩
    · obtain ⟨v', hv', hr⟩ := reaches_leafAll vs h
      exact ⟨v', by simp [hv'], hr⟩
end

def isLeaf : Var → Bool
  | .list _ => false
  | _ => true

mutual
theorem leaves_isLeaf : ∀ v x : Var, x ∈ leaves v → isLeaf x = true
  | .list l, x, h => leavesAll_isLeaf l x h
  | .int _, x, h | .obj _, x, h | .str _, x, h | .err _, x, h | .clear, x, h | .none, x, h
  | .catch _, x, h | .finally _, x, h | .float _, x, h | .waif _, x, h => by
    rw [List.mem_singleton.mp h]
    rfl
theorem leavesAll_isLeaf : ∀ (vs : List Var) (x : Var), x ∈ leavesAll vs → isLeaf x = true
  | [], x, h => by simp [leavesAll] at h
  | v::vs, x, h => by
    rcases List.mem_append.mp h with h|h
    · exact leaves_isLeaf v x h
    · exact leavesAll_isLeaf vs x h
end

theorem leaves_of_isLeaf {v : Var} (h : isLeaf v = true) : leaves v = [v] := by
  cases v <;> first | rfl | cases h

/-- A leaf that is reached is reached from a leaf. -/
theorem reaches_leaves {v u : Var} (hu : isLeaf u = true) (h : s.Reaches v u) :
    ∃ x ∈ leaves v, s.Reaches x u := by
  induction h using ReflTransGen.head_induction_on with
  | refl => exact ⟨u, by simp [leaves_of_isLeaf hu], .refl⟩
  | @head a b hab hb ih =>
    cases hab with
    | list hm =>
      obtain ⟨x, hx, hr⟩ := ih
      exact ⟨x, mem_leavesAll.mpr ⟨b, hm, hx⟩, hr⟩
    | @waif w waif _ hw hm => exact ⟨.waif w, by simp [leaves], ReflTransGen.head (.waif hw hm) hb⟩

end Leaves

/-- Looks through values in order until one is found. -/
def anyOf (f : Var → Result Bool) : List Var → Result Bool
  | [] => .ok false
  | v::vs => do if ← f v then return true else anyOf f vs

theorem anyOf_append (f : Var → Result Bool) (vs ws : List Var) :
    anyOf f (vs++ws) = (do if ← anyOf f vs then return true else anyOf f ws) := by
  induction vs with
  | nil => rfl
  | cons v vs ih =>
    rw [List.cons_append, anyOf, anyOf, ih]
    cases f v with
    | error e => rfl
    | ok b => cases b <;> rfl

theorem anyOf_spec {f : Var → Result Bool} {P : Var → Prop} {vs : List Var}
    (h : ∀ v ∈ vs, ∃ b, f v = .ok b ∧ (b = true ↔ P v)) :
    ∃ b, anyOf f vs = .ok b ∧ (b = true ↔ ∃ v ∈ vs, P v) := by
  induction vs with
  | nil => exact ⟨false, rfl, by simp⟩
  | cons v vs ih =>
    obtain ⟨b, hb, hv⟩ := h v (by simp)
    obtain ⟨c, hc, hvs⟩ := ih fun u hu => h u (by simp [hu])
    cases b with
    | true =>
      refine ⟨true, by rw [anyOf, hb]; rfl, ?_⟩
      exact iff_of_true rfl ⟨v, by simp, hv.mp rfl⟩
    | false =>
      refine ⟨c, by rw [anyOf, hb]; exact hc, ?_⟩
      have hn : ¬P v := fun hp => by simpa using hv.mpr hp
      simp [hvs, hn]

theorem anyOf_false {f : Var → Result Bool} {vs : List Var} (h : anyOf f vs = .ok false) :
    ∀ v ∈ vs, f v = .ok false := by
  induction vs with
  | nil => simp
  | cons v vs ih =>
    rw [anyOf] at h
    obtain ⟨b, hb, h⟩ := bind_ok.mp h
    cases b with
    | true => cases h
    | false =>
      intro u hu
      rcases List.mem_cons.mp hu with rfl|hu
      · exact hb
      · exact ih h u hu

namespace World

section Search
variable (below : WaifRef → Result Bool) (key : WaifRef)

theorem anyOf_single (v : Var) :
    refersToIn below key v = anyOf (refersToIn below key) [v] := by
  rw [anyOf, anyOf]
  cases refersToIn below key v with
  | error e => rfl
  | ok b => cases b <;> rfl

mutual
theorem refersToIn_leaves : ∀ v : Var,
    refersToIn below key v = anyOf (refersToIn below key) (leaves v)
  | .list l => by rw [refersToIn, leaves, refersToAny_leaves l]
  | .int _ | .obj _ | .str _ | .err _ | .clear | .none | .catch _ | .finally _ | .float _
  | .waif _ => anyOf_single below key _
theorem refersToAny_leaves : ∀ vs : List Var,
    refersToAny below key vs = anyOf (refersToIn below key) (leavesAll vs)
  | [] => rfl
  | v::vs => by
    rw [refersToAny, leavesAll, anyOf_append, ← refersToIn_leaves v, ← refersToAny_leaves vs]
end

end Search

/-- What `refers_to` looks for: the waif, or a float with the bits of its address. -/
def Hit (s : World) (key : WaifRef) (v : Var) : Prop :=
  s.Reaches v (.waif key) ∨ s.Reaches v (.float ⟨key.ptr⟩)

theorem hit_iff_leaves {s : World} {key : WaifRef} {v : Var} :
    s.Hit key v ↔ ∃ x ∈ leaves v, s.Hit key x := by
  constructor
  · rintro (h|h)
    · obtain ⟨x, hx, hr⟩ := reaches_leaves s rfl h
      exact ⟨x, hx, .inl hr⟩
    · obtain ⟨x, hx, hr⟩ := reaches_leaves s rfl h
      exact ⟨x, hx, .inr hr⟩
  · rintro ⟨x, hx, h|h⟩
    · exact .inl ((reaches_leaf s v hx).trans h)
    · exact .inr ((reaches_leaf s v hx).trans h)

/-- What a waif leads to, other than itself, its values lead to. -/
theorem reaches_waif {s : World} {w : WaifRef} {waif : Waif} {u : Var} (hw : s.waifs w = some waif)
    (hu : isLeaf u = true) (hne : u ≠ .waif w) :
    s.Reaches (.waif w) u ↔ ∃ x ∈ leavesAll waif.propvals, s.Reaches x u := by
  constructor
  · intro h
    rcases ReflTransGen.cases_head h with he|⟨v, hv, hr⟩
    · exact absurd he.symm hne
    · cases hv with
      | waif hw' hm =>
        obtain rfl := Option.some.inj (hw.symm.trans hw')
        obtain ⟨x, hx, hxr⟩ := reaches_leaves s hu hr
        exact ⟨x, mem_leavesAll.mpr ⟨v, hm, hx⟩, hxr⟩
  · rintro ⟨x, hx, hr⟩
    obtain ⟨v, hv, hvx⟩ := reaches_leafAll s waif.propvals hx
    exact ReflTransGen.head (.waif hw hv) (hvx.trans hr)

theorem hit_waif {s : World} {key w : WaifRef} {waif : Waif} (hw : s.waifs w = some waif)
    (hne : w ≠ key) : s.Hit key (.waif w) ↔ ∃ x ∈ leavesAll waif.propvals, s.Hit key x := by
  rw [Hit, reaches_waif hw rfl (by simpa using hne.symm), reaches_waif hw rfl (by simp)]
  constructor
  · rintro (⟨x, hx, h⟩|⟨x, hx, h⟩)
    · exact ⟨x, hx, .inl h⟩
    · exact ⟨x, hx, .inr h⟩
  · rintro ⟨x, hx, h|h⟩
    · exact .inl ⟨x, hx, h⟩
    · exact .inr ⟨x, hx, h⟩

/-- A value that holds nothing leads only to itself. -/
theorem reaches_empty {s : World} {v u : Var} (hv : ∀ x, ¬s.Holds v x) :
    s.Reaches v u ↔ u = v := by
  constructor
  · intro h
    rcases ReflTransGen.cases_head h with he|⟨x, hx, -⟩
    · exact he.symm
    · exact absurd hx (hv x)
  · rintro rfl
    exact .refl

/-- All waifs in a value are in memory. -/
def Live (s : World) (v : Var) : Prop := ∀ w, Var.waif w ∈ leaves v → (s.waifs w).isSome = true

def Closed (s : World) : Prop :=
  ∀ r waif, s.waifs r = some waif → ∀ w, Var.waif w ∈ leavesAll waif.propvals →
    (s.waifs w).isSome = true

theorem refersToIn_spec {s : World} {key : WaifRef} {below : WaifRef → Result Bool} {x : Var}
    (hx : isLeaf x = true) (hb : ∀ w, x = .waif w → w ≠ key →
      ∃ b, below w = .ok b ∧ (b = true ↔ s.Hit key (.waif w))) :
    ∃ b, refersToIn below key x = .ok b ∧ (b = true ↔ s.Hit key x) := by
  have empty : ∀ v : Var, (∀ u, ¬s.Holds v u) →
      (s.Hit key v ↔ Var.waif key = v ∨ Var.float ⟨key.ptr⟩ = v) := by
    intro v hv
    rw [Hit, reaches_empty hv, reaches_empty hv]
  cases x with
  | list l => cases hx
  | waif w =>
    by_cases he : w = key
    · subst he
      exact ⟨true, by rw [refersToIn, if_pos rfl], iff_of_true rfl (.inl .refl)⟩
    · rw [refersToIn, if_neg he]
      exact hb w rfl he
  | float f =>
    refine ⟨f == ⟨key.ptr⟩, rfl, ?_⟩
    rw [empty _ (fun u hu => by cases hu), beq_iff_eq]
    simp [eq_comm]
  | _ =>
    refine ⟨false, rfl, ?_⟩
    rw [empty _ (fun u hu => by cases hu)]
    simp

theorem propvalsOf_eq {s : World} (h : s.Ok) {w : WaifRef} {waif : Waif}
    (hw : s.waifs w = some waif) : s.propvalsOf w = .ok waif.propvals := by
  have hf := h.fits w waif hw
  have hl : countWaifPropvals s.db waif = waif.propvals.length := by
    rw [countWaifPropvals]
    cases hp : waif.propdefs with
    | none => rw [hf.null hp, List.length_nil]
    | some wpd => exact (hf.count wpd hp).symm
  rw [propvalsOf, waif_ok.mpr hw]
  show (if _ then _ else _) = _
  rw [if_pos (by rw [hl]), hl, List.take_length]
  rfl

section Rank
variable {s : World} (h : s.Ok) (hc : s.Closed) {f : WaifRef → ℕ}
  (hf : ∀ w waif w', s.waifs w = some waif → Var.waif w' ∈ leavesAll waif.propvals → f w' < f w)
  (key : WaifRef)
include h hc hf

/-- The search below a waif ends, since the rank goes down. -/
theorem refersBelow_spec {fuel : ℕ} {w : WaifRef} (hw : (s.waifs w).isSome = true) (hne : w ≠ key)
    (hlt : f w < fuel) :
    ∃ b, s.refersBelow key fuel w = .ok b ∧ (b = true ↔ s.Hit key (.waif w)) := by
  induction fuel generalizing w with
  | zero => omega
  | succ fuel ih =>
    obtain ⟨waif, hwaif⟩ := Option.isSome_iff_exists.mp hw
    have hleaf : ∀ x ∈ leavesAll waif.propvals,
        ∃ b, refersToIn (s.refersBelow key fuel) key x = .ok b ∧ (b = true ↔ s.Hit key x) := by
      intro x hx
      apply refersToIn_spec (leavesAll_isLeaf _ x hx)
      rintro w' rfl hne'
      have := hf w waif w' hwaif hx
      exact ih (hc w waif hwaif w' hx) hne' (by omega)
    obtain ⟨b, hb, hiff⟩ := anyOf_spec hleaf
    refine ⟨b, ?_, hiff.trans (hit_waif hwaif hne).symm⟩
    rw [refersBelow, propvalsOf_eq h hwaif]
    exact (refersToAny_leaves _ key _).trans hb

theorem refersTo_rank (hb : ∀ w, (s.waifs w).isSome = true → f w < s.next) {v : Var}
    (hv : s.Live v) : ∃ b, s.refersTo v key = .ok b ∧ (b = true ↔ s.Hit key v) := by
  have hleaf : ∀ x ∈ leaves v,
      ∃ b, refersToIn (s.refersBelow key s.next) key x = .ok b ∧ (b = true ↔ s.Hit key x) := by
    intro x hx
    apply refersToIn_spec (leaves_isLeaf v x hx)
    rintro w rfl hne
    exact refersBelow_spec h hc hf key (hv w hx) hne (hb w (hv w hx))
  obtain ⟨b, hb', hiff⟩ := anyOf_spec hleaf
  exact ⟨b, (refersToIn_leaves _ key v).trans hb', hiff.trans hit_iff_leaves.symm⟩

end Rank

/-- Where there is no cycle, the search for a waif ends and finds it. -/
theorem refersTo_spec {s : World} (h : s.Ok) (hc : s.Closed) (hn : s.NoCycle) (key : WaifRef)
    {v : Var} (hv : s.Live v) : ∃ b, s.refersTo v key = .ok b ∧ (b = true ↔ s.Hit key v) := by
  classical
  let R : WaifRef → WaifRef → Prop := fun w w' =>
    ∃ waif, s.waifs w = some waif ∧ Var.waif w' ∈ leavesAll waif.propvals
  have hR : ∀ w w', R w w' → TransGen s.Holds (.waif w) (.waif w') := by
    rintro w w' ⟨waif, hw, hm⟩
    obtain ⟨v, hv, hr⟩ := reaches_leafAll s waif.propvals hm
    exact TransGen.head' (.waif hw hv) hr
  have hac : ∀ w, ¬TransGen R w w := by
    intro w hcyc
    exact hn (.waif w) (TransGen.lift' Var.waif hR w w hcyc)
  let S := (Finset.range s.next).image WaifRef.mk
  have hmem : ∀ w, (s.waifs w).isSome = true → w ∈ S := by
    intro w hw
    exact Finset.mem_image.mpr ⟨w.ptr, Finset.mem_range.mpr (s.bounded w hw), rfl⟩
  obtain ⟨f, hf, hlt⟩ := Acyclic.exists_rank S
    (fun w w' ⟨waif, hw, hm⟩ => hmem w' (hc w waif hw w' hm)) hac
  refine refersTo_rank h hc (fun w waif w' hw hm => hf w w' ⟨waif, hw, hm⟩) key (fun w hw => ?_) hv
  have hcard : S.card ≤ s.next := by
    have := Finset.card_image_le (s := Finset.range s.next) (f := WaifRef.mk)
    rwa [Finset.card_range] at this
  exact lt_of_lt_of_le (hlt w (hmem w hw)) hcard

/-- A search that found nothing has looked at every waif. -/
theorem live_of_refersTo {s : World} {v : Var} {key : WaifRef} (h : s.refersTo v key = .ok false) :
    s.Live v := by
  rw [refersTo, refersToIn_leaves] at h
  intro w hw
  have hin := anyOf_false h _ hw
  rw [refersToIn] at hin
  split at hin
  · cases hin
  · cases hn : s.next with
    | zero =>
      rw [hn] at hin
      cases hin
    | succ n =>
      rw [hn, refersBelow] at hin
      obtain ⟨vals, hvals, -⟩ := bind_ok.mp hin
      obtain ⟨waif, hwaif, -⟩ := bind_ok.mp hvals
      rw [waif_ok.mp hwaif]
      rfl

end World

end LambdaMoo.Database
