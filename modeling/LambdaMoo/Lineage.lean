import LambdaMoo.Acyclic
import LambdaMoo.Properties

/-!
# Ancestors and descendants

Where the parents form a forest, the walks up from an object and down from it
end. The walk down visits an object and its descendants once each, a parent
before its children.
-/

set_option autoImplicit false

namespace LambdaMoo.Database
namespace Db

open Forest

/-- The objects from one up to the root of its tree. -/
inductive Lineage (db : Db) : ℤ → List (ℤ × Object) → Prop
  | nil {i : ℤ} : db.objects i = none → Lineage db i []
  | cons {i : ℤ} {o : Object} {rest : List (ℤ × Object)} : db.objects i = some o →
      Lineage db o.kin.up rest → Lineage db i ((i, o)::rest)

section Up
variable {db : Db}

theorem kin_some {i : ℤ} {o : Object} (h : db.objects i = some o) : db.kin i = some o.kin := by
  simp [kin, h]

theorem place_some {i : ℤ} {o : Object} (h : db.objects i = some o) :
    db.place i = some o.place := by
  simp [place, h]

theorem kin_isSome (i : ℤ) : (db.kin i).isSome = (db.objects i).isSome := by simp [kin]

theorem place_isSome (i : ℤ) : (db.place i).isSome = (db.objects i).isSome := by simp [place]

theorem nothing_free : db.objects nothing = none := by
  cases h : db.objects nothing with
  | none => rfl
  | some o =>
    have := db.bounded nothing (by simp [h])
    simp [nothing] at this

theorem above_iff {i j : ℤ} : Above nothing db.kin i j ↔
    ∃ o, db.objects i = some o ∧ o.kin.up = j ∧ j ≠ nothing := by
  constructor
  · rintro ⟨l, hl, rfl, hn⟩
    obtain ⟨o, ho, rfl⟩ := Option.map_eq_some_iff.mp hl
    exact ⟨o, ho, rfl, hn⟩
  · rintro ⟨o, ho, rfl, hn⟩
    exact ⟨o.kin, kin_some ho, rfl, hn⟩

theorem Lineage.unique {i : ℤ} {xs ys : List (ℤ × Object)} (hx : db.Lineage i xs)
    (hy : db.Lineage i ys) : xs = ys := by
  induction hx generalizing ys with
  | nil hn =>
    cases hy with
    | nil => rfl
    | cons ho => simp [hn] at ho
  | cons ho _ ih =>
    cases hy with
    | nil hn => simp [ho] at hn
    | cons ho' hy =>
      obtain rfl := Option.some.inj (ho.symm.trans ho')
      rw [ih hy]

theorem Lineage.rest {i : ℤ} {pre post : List (ℤ × Object)} {a : ℤ × Object}
    (h : db.Lineage i (pre++a::post)) : db.Lineage a.1 (a::post) := by
  induction pre generalizing i with
  | nil =>
    cases h with
    | cons ho hr => exact .cons ho hr
  | cons b pre ih =>
    cases h with
    | cons _ hr => exact ih hr

/-- Where an object changes that is not above, what another field says along a line stays. -/
theorem Lineage.same {β : Type} {db' : Db} {x : ℤ} (g : Object → β)
    (hsame : ∀ i, i ≠ x → (db'.objects i).map (fun o => (o.kin.up, g o)) =
      (db.objects i).map fun o => (o.kin.up, g o))
    {i : ℤ} {chain : List (ℤ × Object)} (h : db.Lineage i chain)
    (hx : ¬Below nothing db.kin i x) : ∃ chain', db'.Lineage i chain' ∧
      chain'.map (fun a => (a.1, g a.2)) = chain.map fun a => (a.1, g a.2) := by
  induction h with
  | @nil i hn =>
    have hi : i ≠ x := by
      rintro rfl
      exact hx .refl
    have hs := hsame i hi
    rw [hn, Option.map_none, Option.map_eq_none_iff] at hs
    exact ⟨[], .nil hs, rfl⟩
  | @cons i o rest ho hrest ih =>
    have hi : i ≠ x := by
      rintro rfl
      exact hx .refl
    have hs := hsame i hi
    rw [ho, Option.map_some, Option.map_eq_some_iff] at hs
    obtain ⟨o', ho', he⟩ := hs
    rw [Prod.mk.injEq] at he
    by_cases hn : o.kin.up = nothing
    · rw [hn] at hrest
      obtain rfl := hrest.unique (.nil nothing_free)
      refine ⟨[(i, o')], .cons ho' ?_, by simp [he.2]⟩
      rw [he.1, hn]
      exact .nil nothing_free
    · have ha : Above nothing db.kin i o.kin.up := above_iff.mpr ⟨o, ho, rfl, hn⟩
      obtain ⟨rest', hl, hm⟩ := ih fun hb => hx (.head ha hb)
      refine ⟨(i, o')::rest', .cons ho' ?_, by simp [he.2, hm]⟩
      rw [he.1]
      exact hl

theorem ancestors_rank {r : ℤ → ℕ} (hr : ∀ i j, Above nothing db.kin i j → r j < r i)
    {fuel : ℕ} {i : ℤ} (hlt : (db.objects i).isSome = true → r i+1 < fuel) (h0 : 0 < fuel) :
    ∃ chain, db.ancestors fuel i = .ok chain ∧ db.Lineage i chain := by
  induction fuel generalizing i with
  | zero => exact absurd h0 (Nat.lt_irrefl 0)
  | succ fuel ih =>
    rw [ancestors, db.find_eq]
    cases ho : db.objects i with
    | none => exact ⟨[], rfl, .nil ho⟩
    | some o =>
      have hi := hlt (by simp [ho])
      have hup : (db.objects o.kin.up).isSome = true → r o.kin.up+1 < fuel := by
        intro hs
        have hne : o.kin.up ≠ nothing := by
          intro hn
          rw [hn, nothing_free] at hs
          cases hs
        have := hr i _ (above_iff.mpr ⟨o, ho, rfl, hne⟩)
        omega
      obtain ⟨rest, hrest, hl⟩ := ih hup (by omega)
      exact ⟨(i, o)::rest, by simp only [hrest]; rfl, .cons ho hl⟩

variable (hf : IsForest nothing db.kin)
include hf

theorem ancestors_eq (i : ℤ) : ∃ chain, db.ancestors db.fuel i = .ok chain ∧ db.Lineage i chain := by
  obtain ⟨r, hr, hlt⟩ := hf.rank db.kin_small
  apply ancestors_rank hr
  · intro hs
    exact hlt i (by rw [kin_isSome, hs])
  · exact Nat.succ_pos _

theorem Lineage.ancestors {i : ℤ} {chain : List (ℤ × Object)} (h : db.Lineage i chain) :
    db.ancestors db.fuel i = .ok chain := by
  obtain ⟨chain', he, hl⟩ := ancestors_eq hf i
  rw [he, hl.unique h]

theorem Lineage.countProperties {i : ℤ} {chain : List (ℤ × Object)} (h : db.Lineage i chain) :
    db.countProperties i = .ok (chain.map fun a => a.2.propdefs.length).sum := by
  rw [Db.countProperties, h.ancestors hf]
  rfl

/-- The members of a lineage are the objects above. -/
theorem Lineage.mem {i : ℤ} {chain : List (ℤ × Object)} (h : db.Lineage i chain) {j : ℤ}
    {o : Object} : (j, o) ∈ chain ↔
      db.objects j = some o ∧ (db.objects i).isSome = true ∧ Below nothing db.kin i j := by
  induction h with
  | nil hn => simp [hn]
  | @cons i oi rest ho hrest ih =>
    rw [List.mem_cons, ih]
    constructor
    · rintro (he|⟨hj, hs, hb⟩)
      · obtain ⟨rfl, rfl⟩ := Prod.mk.inj he
        exact ⟨ho, by simp [ho], .refl⟩
      · have hne : oi.kin.up ≠ nothing := by
          intro hn
          rw [hn, nothing_free] at hs
          cases hs
        exact ⟨hj, by simp [ho], .head (above_iff.mpr ⟨oi, ho, rfl, hne⟩) hb⟩
    · rintro ⟨hj, -, hb⟩
      rcases Relation.ReflTransGen.cases_head hb with rfl|⟨k, hk, hb⟩
      · exact .inl (by rw [Option.some.inj (ho.symm.trans hj)])
      · obtain ⟨o', ho', rfl, hne⟩ := above_iff.mp hk
        obtain rfl := Option.some.inj (ho.symm.trans ho')
        refine .inr ⟨hj, ?_, hb⟩
        rw [← kin_isSome]
        exact (hf.up i oi.kin (kin_some ho)).resolve_left hne

end Up

theorem mapM_ok {α β : Type} {f : α → Result β} {P : α → β → Prop} {xs : List α}
    (h : ∀ x ∈ xs, ∃ y, f x = .ok y ∧ P x y) :
    ∃ ys, xs.mapM f = .ok ys ∧ List.Forall₂ P xs ys := by
  induction xs with
  | nil => exact ⟨[], rfl, .nil⟩
  | cons x xs ih =>
    obtain ⟨y, hy, hp⟩ := h x (by simp)
    obtain ⟨ys, hys, hall⟩ := ih fun z hz => h z (by simp [hz])
    refine ⟨y::ys, ?_, .cons hp hall⟩
    rw [List.mapM_cons, hy, hys]
    rfl

/-- A walk from an object down: the objects in order, each with its offset. -/
structure Visits (db : Db) (root : ℤ) (pos : ℕ) (ds : List (ℤ × ℕ)) : Prop where
  nodup : (ds.map Prod.fst).Nodup
  mem : ∀ d, d ∈ ds.map Prod.fst ↔ (db.objects d).isSome = true ∧ Below nothing db.kin d root
  order : ∀ pre d post, ds = pre++d::post → d = (root, pos) ∨
    ∃ o e, db.objects d.1 = some o ∧ e ∈ pre ∧ o.kin.up = e.1 ∧ e.1 ≠ nothing ∧
      d.2 = o.propdefs.length+e.2

namespace Visits
variable {db : Db} {root : ℤ} {pos : ℕ} {ds : List (ℤ × ℕ)}

theorem head (h : db.Visits root pos ds) (hr : (db.objects root).isSome = true) :
    ∃ rest, ds = (root, pos)::rest ∧ root ∉ rest.map Prod.fst := by
  cases ds with
  | nil =>
    have := (h.mem root).mpr ⟨hr, .refl⟩
    simp at this
  | cons d rest =>
    rcases h.order [] d rest rfl with rfl|⟨o, e, -, he, -⟩
    · have hn := h.nodup
      rw [List.map_cons, List.nodup_cons] at hn
      exact ⟨rest, rfl, hn.1⟩
    · simp at he

/-- A walk does not depend on what is above the object where it begins. -/
theorem congr (h : db.Visits root pos ds) (hr : (db.objects root).isSome = true) {db' : Db}
    (hsome : ∀ i, (db'.objects i).isSome = (db.objects i).isSome)
    (hsame : ∀ i o o', i ≠ root → db.objects i = some o → db'.objects i = some o' →
      o'.kin.up = o.kin.up ∧ o'.propdefs.length = o.propdefs.length) : db'.Visits root pos ds := by
  have hup : ∀ i j, i ≠ root → (Above nothing db.kin i j ↔ Above nothing db'.kin i j) := by
    intro i j hi
    rw [above_iff, above_iff]
    constructor
    · rintro ⟨o, ho, rfl, hn⟩
      have hs := hsome i
      rw [ho, Option.isSome_some] at hs
      obtain ⟨o', ho'⟩ := Option.isSome_iff_exists.mp hs
      exact ⟨o', ho', (hsame i o o' hi ho ho').1, hn⟩
    · rintro ⟨o', ho', rfl, hn⟩
      have hs := hsome i
      rw [ho', Option.isSome_some] at hs
      obtain ⟨o, ho⟩ := Option.isSome_iff_exists.mp hs.symm
      exact ⟨o, ho, (hsame i o o' hi ho ho').1.symm, hn⟩
  refine ⟨h.nodup, fun d => ?_, fun pre d post hds => ?_⟩
  · rw [h.mem, hsome]
    refine and_congr_right fun _ => ⟨?_, ?_⟩
    · exact Acyclic.reaches_mono fun a b ha => (hup a b ha).mp
    · exact Acyclic.reaches_mono fun a b ha => (hup a b ha).mpr
  · obtain ⟨rest, hrest, hnot⟩ := h.head hr
    cases pre with
    | nil =>
      rw [hds] at hrest
      exact .inl (List.cons.inj hrest).1
    | cons p pre =>
      have hd : d.1 ≠ root := by
        intro he
        rw [hrest] at hds
        apply hnot
        rw [(List.cons.inj hds).2, ← he]
        simp
      rcases h.order (p::pre) d post hds with rfl|⟨o, e, ho, he, heup, hne, hoff⟩
      · exact absurd rfl hd
      · have hs := hsome d.1
        rw [ho, Option.isSome_some] at hs
        obtain ⟨o', ho'⟩ := Option.isSome_iff_exists.mp hs
        obtain ⟨hu, hl⟩ := hsame d.1 o o' hd ho ho'
        exact .inr ⟨o', e, ho', he, hu.trans heup, hne, by rw [hl, hoff]⟩

/-- All but the first of the objects come from their parents. -/
theorem cases (h : db.Visits root pos ds) (hf : IsForest nothing db.kin) {d : ℤ × ℕ}
    (hd : d ∈ ds) : d = (root, pos) ∨ d.1 ≠ root ∧ ∃ o e, db.objects d.1 = some o ∧ e ∈ ds ∧
      o.kin.up = e.1 ∧ d.2 = o.propdefs.length+e.2 := by
  obtain ⟨pre, post, hds⟩ := List.append_of_mem hd
  rcases h.order pre d post hds with rfl|⟨o, e, ho, he, hup, hne, hoff⟩
  · exact .inl rfl
  · have hm : e ∈ ds := by
      rw [hds]
      exact List.mem_append_left _ he
    refine .inr ⟨?_, o, e, ho, hm, hup, hoff⟩
    intro hr
    have hb := ((h.mem e.1).mp (List.mem_map_of_mem hm)).2
    rw [← hr] at hb
    exact hf.irrefl (above_iff.mpr ⟨o, ho, hup, hne⟩) hb

end Visits

section Down
variable {db : Db} (hf : IsForest nothing db.kin)
include hf

theorem children_eq {i : ℤ} (hi : (db.objects i).isSome = true) :
    ∃ xs, db.children i = .ok xs ∧ xs.Nodup ∧ ∀ c, c ∈ xs ↔ Above nothing db.kin c i := by
  obtain ⟨o, ho⟩ := Option.isSome_iff_exists.mp hi
  obtain ⟨xs, hc, hn, hmem⟩ := hf.children (kin_some ho)
  refine ⟨xs, ?_, hn, hmem⟩
  have hlen : xs.length < db.fuel := by
    apply db.kin_small xs hn
    intro x hx
    exact (hf.above_isSome ((hmem x).mp hx)).1
  rw [children, object, db.find_eq, ho]
  show deref (walk nothing db.kin db.fuel o.kin.first) = _
  rw [Chain.walk_eq hc hlen]
  rfl

/-- No object is below two children of one parent. -/
theorem below_child_unique {d c c' i : ℤ} (hc : Above nothing db.kin c i)
    (hc' : Above nothing db.kin c' i) (h : Below nothing db.kin d c)
    (h' : Below nothing db.kin d c') : c = c' := by
  have key : ∀ {a b : ℤ}, Above nothing db.kin a i → Above nothing db.kin b i →
      Below nothing db.kin a b → a = b := by
    intro a b ha hb hab
    rcases Relation.ReflTransGen.cases_head hab with he|⟨k, hk, hkb⟩
    · exact he
    · obtain rfl := above_unique ha hk
      exact absurd hkb (hf.irrefl hb)
  have huniq : Relator.RightUnique (Above nothing db.kin) := fun _ _ _ hab hac => above_unique hab hac
  rcases Relation.ReflTransGen.total_of_right_unique huniq h h' with hcc|hcc
  · exact key hc hc' hcc
  · exact (key hc' hc hcc).symm

section Children
variable {i : ℤ} {pos : ℕ} {xs : List ℤ} {ys : List (List (ℤ × ℕ))}
  (hy : List.Forall₂ (fun c y => ∃ o, db.objects c = some o ∧
    db.Visits c (o.propdefs.length+pos) y) xs ys)
include hy

omit hf in
theorem flatten_mem (d : ℤ) : d ∈ ys.flatten.map Prod.fst ↔
    ∃ c ∈ xs, (db.objects d).isSome = true ∧ Below nothing db.kin d c := by
  induction hy with
  | nil => simp
  | @cons c y xs ys hv _ ih =>
    obtain ⟨o, -, hv⟩ := hv
    rw [List.flatten_cons, List.map_append, List.mem_append, ih, hv.mem]
    simp

theorem flatten_nodup (hn : xs.Nodup) (ha : ∀ c ∈ xs, Above nothing db.kin c i) :
    (ys.flatten.map Prod.fst).Nodup := by
  induction hy with
  | nil => simp
  | @cons c y xs ys hv hys ih =>
    obtain ⟨o, -, hv⟩ := hv
    rw [List.nodup_cons] at hn
    rw [List.flatten_cons, List.map_append, List.nodup_append]
    refine ⟨hv.nodup, ih hn.2 (fun c' hc' => ha c' (by simp [hc'])), ?_⟩
    intro d hd d' hd' he
    subst he
    obtain ⟨c', hc', -, hb'⟩ := (flatten_mem hys d).mp hd'
    obtain rfl := below_child_unique hf (ha c (by simp)) (ha c' (by simp [hc']))
      ((hv.mem d).mp hd).2 hb'
    exact hn.1 hc'

omit hf in
theorem flatten_order (pre : List (ℤ × ℕ)) (d : ℤ × ℕ) (post : List (ℤ × ℕ))
    (h : ys.flatten = pre++d::post) :
    (∃ c ∈ xs, ∃ o, db.objects c = some o ∧ d = (c, o.propdefs.length+pos)) ∨
    ∃ o e, db.objects d.1 = some o ∧ e ∈ pre ∧ o.kin.up = e.1 ∧ e.1 ≠ nothing ∧
      d.2 = o.propdefs.length+e.2 := by
  induction hy generalizing pre with
  | nil => simp at h
  | @cons c y xs ys hv _ ih =>
    obtain ⟨o, ho, hv⟩ := hv
    rw [List.flatten_cons, List.append_eq_append_iff] at h
    rcases h with ⟨pre', rfl, hrest⟩|⟨rest, hy, hrest⟩
    · rcases ih pre' hrest with ⟨c', hc', hc''⟩|⟨o', e, ho', he, hrest⟩
      · exact .inl ⟨c', by simp [hc'], hc''⟩
      · exact .inr ⟨o', e, ho', by simp [he], hrest⟩
    · cases rest with
      | nil =>
        rw [List.nil_append] at hrest
        rcases ih [] hrest.symm with ⟨c', hc', hc''⟩|⟨o', e, -, he, -⟩
        · exact .inl ⟨c', by simp [hc'], hc''⟩
        · simp at he
      | cons d' rest =>
        obtain ⟨rfl, -⟩ := List.cons.inj hrest
        rcases hv.order pre d rest hy with he|hother
        · exact .inl ⟨c, by simp, o, ho, he⟩
        · exact .inr hother

/-- The walks below the children of an object make the walk below it. -/
theorem visits_children (hi : (db.objects i).isSome = true) (hn : xs.Nodup)
    (hmem : ∀ c, c ∈ xs ↔ Above nothing db.kin c i) :
    db.Visits i pos ((i, pos)::ys.flatten) := by
  have hne : i ≠ nothing := by
    rintro rfl
    rw [nothing_free] at hi
    cases hi
  refine ⟨?_, fun d => ?_, fun pre d post h => ?_⟩
  · rw [List.map_cons, List.nodup_cons]
    refine ⟨?_, flatten_nodup hf hy hn fun c hc => (hmem c).mp hc⟩
    rw [flatten_mem hy]
    rintro ⟨c, hc, -, hb⟩
    exact hf.irrefl ((hmem c).mp hc) hb
  · rw [List.map_cons, List.mem_cons, flatten_mem hy]
    constructor
    · rintro (rfl|⟨c, hc, hd, hb⟩)
      · exact ⟨hi, .refl⟩
      · exact ⟨hd, hb.tail ((hmem c).mp hc)⟩
    · rintro ⟨hd, hb⟩
      rcases Relation.ReflTransGen.cases_tail hb with he|⟨c, hdc, hc⟩
      · exact .inl he.symm
      · exact .inr ⟨c, (hmem c).mpr hc, hd, hdc⟩
  · cases pre with
    | nil => exact .inl (List.cons.inj h).1.symm
    | cons p pre =>
      obtain ⟨rfl, hrest⟩ := List.cons.inj h
      rcases flatten_order hy pre d post hrest with ⟨c, hc, o, ho, rfl⟩|⟨o, e, ho, he, hrest⟩
      · obtain ⟨o', ho', hup, -⟩ := above_iff.mp ((hmem c).mp hc)
        obtain rfl := Option.some.inj (ho.symm.trans ho')
        exact .inr ⟨o, (i, pos), ho, by simp, hup, hne, rfl⟩
      · exact .inr ⟨o, e, ho, by simp [he], hrest⟩

end Children

theorem subtree_rank {r : ℤ → ℕ} (hr : ∀ i j, Above nothing db.kin i j → r j < r i)
    (hlt : ∀ i, (db.objects i).isSome = true → r i+1 < db.fuel) {fuel : ℕ} {i : ℤ} (pos : ℕ)
    (hi : (db.objects i).isSome = true) (hfuel : db.fuel ≤ fuel+r i) :
    ∃ ds, db.subtree fuel i pos = .ok ds ∧ db.Visits i pos ds := by
  induction fuel generalizing i pos with
  | zero =>
    have := hlt i hi
    omega
  | succ fuel ih =>
    obtain ⟨xs, hxs, hn, hmem⟩ := children_eq hf hi
    have hall : ∀ c ∈ xs, ∃ y,
        (do subtree db fuel c ((← db.object c).propdefs.length+pos)) = Except.ok y ∧
        ∃ o, db.objects c = some o ∧ db.Visits c (o.propdefs.length+pos) y := by
      intro c hc
      have ha := (hmem c).mp hc
      obtain ⟨o, ho, -⟩ := above_iff.mp ha
      have := hr c i ha
      obtain ⟨y, hy, hv⟩ := ih (o.propdefs.length+pos) (i := c) (by simp [ho]) (by omega)
      refine ⟨y, ?_, o, ho, hv⟩
      rw [object, db.find_eq, ho]
      exact hy
    obtain ⟨ys, hys, hv⟩ := mapM_ok hall
    refine ⟨(i, pos)::ys.flatten, ?_, visits_children hf hv hi hn hmem⟩
    rw [subtree]
    exact bind_ok.mpr ⟨xs, hxs, bind_ok.mpr ⟨ys, hys, rfl⟩⟩

theorem subtree_eq {i : ℤ} (pos : ℕ) (hi : (db.objects i).isSome = true) :
    ∃ ds, db.subtree db.fuel i pos = .ok ds ∧ db.Visits i pos ds := by
  obtain ⟨r, hr, hlt⟩ := hf.rank db.kin_small
  apply subtree_rank hf hr (fun j hj => hlt j (by rw [kin_isSome, hj])) pos hi
  omega

end Down

end Db
end LambdaMoo.Database
