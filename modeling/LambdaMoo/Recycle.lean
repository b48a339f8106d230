import LambdaMoo.Chparent
import LambdaMoo.Renumber
import LambdaMoo.SlotValues

/-!
# Creating and recycling objects

Before an object is destroyed its contents and it itself are moved to nowhere,
and its children are given to its parent, so that nothing is linked to it.
-/

set_option autoImplicit false

namespace LambdaMoo.Database
namespace Db

open Forest

/-- A list of what a node owns gets shorter when one is taken out. -/
theorem length_lt_of_taken {xs ys : List ℤ} {c : ℤ} (hy : ys.Nodup) (hc : c ∈ xs)
    (h : ∀ x, x ∈ ys → x ∈ xs ∧ x ≠ c) : ys.length < xs.length := by
  have hsub : ys ⊆ xs.erase c := by
    intro x hxy
    obtain ⟨hm, hne⟩ := h x hxy
    exact (List.mem_erase_of_ne hne).mpr hm
  have hle := (List.subperm_of_subset hy hsub).length_le
  have hpos := List.length_pos_of_mem hc
  rw [List.length_erase_of_mem hc] at hle
  omega

section Contents
variable {db : Db} (h : IsForest nothing db.place)
include h

theorem contents_eq {i : ℤ} (hi : (db.objects i).isSome = true) :
    ∃ xs, db.contents i = .ok xs ∧ xs.Nodup ∧ (∀ c, c ∈ xs ↔ Above nothing db.place c i) ∧
      xs.length < db.fuel := by
  obtain ⟨o, ho⟩ := Option.isSome_iff_exists.mp hi
  obtain ⟨xs, hc, hn, hmem⟩ := h.children (place_some ho)
  have hlen : xs.length < db.fuel := by
    apply db.place_small xs hn
    intro x hx
    exact (h.above_isSome ((hmem x).mp hx)).1
  refine ⟨xs, ?_, hn, hmem, hlen⟩
  refine bind_ok.mpr ⟨o, object_ok ho, ?_⟩
  rw [Chain.walk_eq hc hlen]
  rfl

/-- Objects were moved to nowhere, and nothing else was changed. -/
structure Emptied (db db' : Db) : Prop where
  moved : db.Moved db'
  out : ∀ i, upOf nothing db'.place i = nothing ∨ upOf nothing db'.place i = upOf nothing db.place i

omit h in
theorem Emptied.trans {db' db'' : Db} (he : db.Emptied db') (he' : db'.Emptied db'') :
    db.Emptied db'' := by
  refine ⟨he.moved.trans he'.moved, fun i => ?_⟩
  rcases he'.out i with hn|hn
  · exact .inl hn
  · rw [hn]
    exact he.out i

omit h in
/-- What is in an object does not change when others are moved out of theirs. -/
theorem Emptied.above {db' : Db} (he : db.Emptied db') {c i : ℤ}
    (ha : Above nothing db'.place c i) : Above nothing db.place c i := by
  obtain ⟨hs, hu, hn⟩ := above_upOf.mp ha
  refine above_upOf.mpr ⟨?_, ?_, hn⟩
  · rw [place_isSome, ← he.moved.isSome, ← place_isSome]
    exact hs
  · rcases he.out c with ho|ho
    · exact absurd (hu.symm.trans ho) hn
    · rw [← ho, hu]

theorem moveToNothing_eq (callVerb : CallVerb) {c : ℤ} (hc : (db.objects c).isSome = true) :
    ∃ db', db.moveToNothing callVerb c
        = .ok (decide (callVerb (upOf nothing db.place c) "exitfunc" = .none), db') ∧
      db.changeLocation c nothing = .ok db' ∧ db.Emptied db' ∧ upOf nothing db'.place c = nothing := by
  obtain ⟨o, ho⟩ := Option.isSome_iff_exists.mp hc
  have hnot := h.not_below_nil ((place_isSome c).trans hc)
  obtain ⟨hp, he, hf, hsome, hup⟩ := changeLocation_eq h hc (.inl rfl) hnot
  refine ⟨db.setPlace hp, ?_, he, ⟨.setPlace hf hsome, ?_⟩, ?_⟩
  · rw [upOf_eq nothing (place_some ho)]
    exact bind_ok.mpr ⟨o, object_ok ho, bind_ok.mpr ⟨_, he, rfl⟩⟩
  · intro i
    rw [setPlace_place hsome, hup]
    by_cases hi : i = c
    · subst hi
      exact .inl (Function.update_self ..)
    · exact .inr (Function.update_of_ne hi ..)
  · rw [setPlace_place hsome, hup, Function.update_self]

/-- The loop over the contents ends: with an `exitfunc` to be run for the first of them, or with no
contents and none run. -/
theorem moveContents_eq (callVerb : CallVerb) {oid : ℤ} (hoid : (db.objects oid).isSome = true)
    {fuel : ℕ} {xs : List ℤ} (hxs : db.contents oid = .ok xs) (hlen : xs.length < fuel) :
    ∃ r, moveContents callVerb oid fuel db = .ok r ∧ db.Emptied r.2 ∧
      (r.1 = true → callVerb oid "exitfunc" = .none ∧ ∃ c rest, xs = c::rest ∧
        db.changeLocation c nothing = .ok r.2) ∧
      (r.1 = false → r.2.contents oid = .ok [] ∧ (xs = [] ∨ callVerb oid "exitfunc" ≠ .none)) := by
  induction fuel generalizing db xs with
  | zero => omega
  | succ fuel ih =>
    obtain ⟨xs', hxs', hn, hmem, -⟩ := contents_eq h hoid
    obtain rfl := Except.ok.inj (hxs.symm.trans hxs')
    cases xs with
    | nil =>
      exact ⟨(false, db), bind_ok.mpr ⟨[], hxs, rfl⟩, ⟨.refl h, fun _ => .inr rfl⟩, by simp,
        fun _ => ⟨hxs, .inl rfl⟩⟩
    | cons c rest =>
      have hc : Above nothing db.place c oid := (hmem c).mp (by simp)
      have hcs : (db.objects c).isSome = true := by
        rw [← place_isSome]
        exact (h.above_isSome hc).1
      obtain ⟨db', hr, hloc, he, hout⟩ := moveToNothing_eq h callVerb hcs
      rw [(above_upOf.mp hc).2.1] at hr
      by_cases hcalled : callVerb oid "exitfunc" = .none
      · rw [decide_eq_true hcalled] at hr
        exact ⟨(true, db'), bind_ok.mpr ⟨c::rest, hxs, bind_ok.mpr ⟨_, hr, rfl⟩⟩, he,
          fun _ => ⟨hcalled, c, rest, rfl, hloc⟩, by simp⟩
      · rw [decide_eq_false hcalled] at hr
        have hoid' : (db'.objects oid).isSome = true := by
          rw [he.moved.isSome]
          exact hoid
        obtain ⟨ys, hys, hny, hmy, -⟩ := contents_eq he.moved.place hoid'
        have hlt : ys.length < (c::rest).length := by
          refine length_lt_of_taken hny List.mem_cons_self fun x hx => ?_
          have ha := (hmy x).mp hx
          refine ⟨(hmem x).mpr (he.above ha), ?_⟩
          rintro rfl
          obtain ⟨-, hu, hne⟩ := above_upOf.mp ha
          exact hne (hu.symm.trans hout)
        obtain ⟨r, hr', he', hrun, hlast⟩ := ih he.moved.place hoid' hys (by omega)
        exact ⟨r, bind_ok.mpr ⟨c::rest, hxs, bind_ok.mpr ⟨_, hr, hr'⟩⟩, he.trans he',
          fun ht => absurd (hrun ht).1 hcalled, fun hf => ⟨(hlast hf).1, .inr hcalled⟩⟩

theorem contents_nil {oid : ℤ} (hxs : db.contents oid = .ok []) (c : ℤ) :
    ¬Above nothing db.place c oid := by
  intro hc
  have hs : (db.objects oid).isSome = true := by
    rw [← place_isSome]
    exact (h.above_isSome hc).2
  obtain ⟨xs, hxs', -, hmem, -⟩ := contents_eq h hs
  obtain rfl := Except.ok.inj (hxs.symm.trans hxs')
  exact List.not_mem_nil ((hmem c).mpr hc)

end Contents

section Children
variable {db : Db}

theorem Chparented.up {db' : Db} {oid parent : ℤ} {o : Object}
    (hc : db.Chparented db' oid parent o) (i : ℤ) (hoid : (db.objects oid).isSome = true) :
    upOf nothing db'.kin i = Function.update (upOf nothing db.kin) oid parent i := by
  obtain ⟨db1, ds, h1, -, hp⟩ := hc
  rw [(hp.like fun _ _ _ hq => hq.shape).kin_eq]
  cases hi : db.objects i with
  | none =>
    have hs := h1.isSome i
    rw [hi, Option.isSome_none, Option.isSome_eq_false_iff, Option.isNone_iff_eq_none] at hs
    have hne : i ≠ oid := by
      rintro rfl
      rw [hi] at hoid
      cases hoid
    rw [Function.update_of_ne hne]
    simp [upOf, kin, hs, hi]
  | some oi =>
    obtain ⟨l, hl, hu⟩ := h1.each i oi hi
    rw [upOf_eq nothing (kin_some hl), hu]
    by_cases hne : i = oid
    · subst hne
      rw [Function.update_self, Function.update_self]
    · rw [Function.update_of_ne hne, Function.update_of_ne hne, upOf_eq nothing (kin_some hi)]

/-- Parents were changed, and no location was. -/
structure Passed (db db' : Db) : Prop where
  tends : db.Tends db'
  size : db'.numObjects = db.numObjects
  isSome : ∀ i, (db'.objects i).isSome = (db.objects i).isSome
  place : db'.place = db.place

theorem Chparented.passed {db' : Db} {oid parent : ℤ} {o : Object}
    (hc : db.Chparented db' oid parent o) (ht : db.Tends db') : db.Passed db' := by
  obtain ⟨db1, ds, h1, -, hp⟩ := hc
  refine ⟨ht, hp.size.trans h1.size, fun i => (hp.isSome i).trans (h1.isSome i), ?_⟩
  rw [(hp.like fun _ _ _ hq => hq.shape).place_eq, h1.place_eq]

theorem Passed.trans {db' db'' : Db} (h : db.Passed db') (h' : db'.Passed db'') : db.Passed db'' :=
  ⟨h.tends.trans h'.tends, h'.size.trans h.size, fun i => (h'.isSome i).trans (h.isSome i),
    h'.place.trans h.place⟩

variable (h : db.Sound)
include h

/-- A child can always be given to the parent of its parent. -/
theorem changeParent_child {c oid : ℤ} {oc o : Object} (hc : db.objects c = some oc)
    (ho : db.objects oid = some o) (ha : Above nothing db.kin c oid) :
    ∃ db', db.changeParent c o.kin.up = .ok (true, db') ∧ db.Tends db' ∧
      db.Chparented db' c o.kin.up oc := by
  have hdest : o.kin.up = nothing ∨ (db.objects o.kin.up).isSome = true := by
    rw [← kin_isSome]
    exact h.kin.up oid o.kin (kin_some ho)
  have hcyc : ∀ {i}, Below nothing db.kin o.kin.up i → Below nothing db.kin i c → False := by
    intro i hi hic
    by_cases hn : o.kin.up = nothing
    · rw [hn] at hi
      exact h.kin.not_below_nil (by simp [kin_some hc]) (hi.trans hic)
    · exact h.kin.irrefl (above_iff.mpr ⟨o, ho, rfl, hn⟩) ((hi.trans hic).tail ha)
  obtain ⟨⟨b, db'⟩, hr, hs, hcase⟩ := changeParent_eq h hc (fun hb => hcyc hb .refl) hdest
  rcases hcase with ⟨hb, hch⟩|⟨-, i, j, oi, oj, hi, hj, hbi, hpj, p, hp, q, hq, he⟩
  · obtain rfl : b = true := hb
    exact ⟨db', hr, hs, hch⟩
  · have hij : Below nothing db.kin i j := by
      by_cases hn : o.kin.up = nothing
      · rw [hn] at hpj
        exact absurd hpj (h.kin.not_below_nil (by simp [kin_some hj]))
      · exact ((hbi.tail ha).tail (above_iff.mpr ⟨o, ho, rfl, hn⟩)).trans hpj
    obtain ⟨rfl, -⟩ := h.named.apart i j oi oj hi hj hij p hp q hq he
    exact (hcyc hpj hbi).elim

omit h in
/-- The calls of `db_change_parent` in the loop over the children, which all succeed. -/
inductive Passes (oid : ℤ) : Db → Db → Prop
  | done {db : Db} : db.children oid = .ok [] → Passes oid db db
  | pass {db db1 db' : Db} {c : ℤ} {rest : List ℤ} {o : Object} :
      db.children oid = .ok (c::rest) → db.object oid = .ok o →
      db.changeParent c o.kin.up = .ok (true, db1) → Passes oid db1 db' → Passes oid db db'

theorem children_bound {i : ℤ} (hi : (db.objects i).isSome = true) {xs : List ℤ}
    (hxs : db.children i = .ok xs) : xs.length < db.fuel := by
  obtain ⟨xs', hxs', hn, hmem⟩ := children_eq h.kin hi
  obtain rfl := Except.ok.inj (hxs.symm.trans hxs')
  apply db.kin_small xs hn
  intro x hx
  exact (h.kin.above_isSome ((hmem x).mp hx)).1

/-- The loop over the children ends when there are none. -/
theorem passChildren_eq {oid : ℤ} (hoid : (db.objects oid).isSome = true) {fuel : ℕ} {xs : List ℤ}
    (hxs : db.children oid = .ok xs) (hlen : xs.length < fuel) :
    ∃ db', passChildren oid fuel db = .ok db' ∧ Passes oid db db' ∧ db.Passed db' ∧
      ∀ c, ¬Above nothing db'.kin c oid := by
  induction fuel generalizing db xs with
  | zero => omega
  | succ fuel ih =>
    obtain ⟨xs', hxs', hn, hmem⟩ := children_eq h.kin hoid
    obtain rfl := Except.ok.inj (hxs.symm.trans hxs')
    cases xs with
    | nil =>
      refine ⟨db, bind_ok.mpr ⟨[], hxs, rfl⟩, .done hxs, ⟨.refl h, rfl, fun _ => rfl, rfl⟩,
        fun c hc => ?_⟩
      have := (hmem c).mpr hc
      simp at this
    | cons c rest =>
      have ha : Above nothing db.kin c oid := (hmem c).mp (by simp)
      obtain ⟨o, ho⟩ := Option.isSome_iff_exists.mp hoid
      obtain ⟨oc, hc, -⟩ := above_iff.mp ha
      obtain ⟨db', hr, ht, hch⟩ := changeParent_child h hc ho ha
      have hs := ht.sound
      have hp := hch.passed ht
      have hoid' : (db'.objects oid).isSome = true := by
        rw [hp.isSome]
        exact hoid
      obtain ⟨ys, hys, hny, hmy⟩ := children_eq hs.kin hoid'
      have hlt : ys.length < (c::rest).length := by
        refine length_lt_of_taken hny List.mem_cons_self fun x hx => ?_
        obtain ⟨hxs, hu, hne⟩ := above_upOf.mp ((hmy x).mp hx)
        rw [hch.up x (by simp [hc])] at hu
        have hxc : x ≠ c := by
          rintro rfl
          rw [Function.update_self] at hu
          exact h.kin.irrefl (above_iff.mpr ⟨o, ho, hu, hne⟩) .refl
        rw [Function.update_of_ne hxc] at hu
        refine ⟨(hmem x).mpr (above_upOf.mpr ⟨?_, hu, hne⟩), hxc⟩
        rw [kin_isSome, ← hp.isSome, ← kin_isSome]
        exact hxs
      obtain ⟨db'', hr', hps, hp', hlast⟩ := ih hs hoid' hys (by omega)
      refine ⟨db'', ?_, .pass hxs (object_ok ho) hr hps, hp.trans hp', hlast⟩
      refine bind_ok.mpr ⟨c::rest, hxs, bind_ok.mpr ⟨o, object_ok ho, bind_ok.mpr ⟨_, hr, hr'⟩⟩⟩

/-- What `demolish` does: it passes the children on, takes the object from its parent, and destroys
it when nothing is linked to it. -/
structure Demolished (oid : ℤ) (db db' : Db) : Prop where
  steps : ∃ db1 db2 o2 db3 o3, Passes oid db db1 ∧ db1.changeParent oid nothing = .ok (true, db2) ∧
    db2.object oid = .ok o2 ∧ db2.incrQuota o2.owner = .ok db3 ∧ db3.objects oid = some o3 ∧
    (o3.kin.up = nothing ∧ o3.kin.first = nothing ∧ o3.place.up = nothing ∧
      o3.place.first = nothing) ∧ db3.destroyObject oid = .ok db'

/-- An object without contents and location can be destroyed. -/
theorem demolish_tends {oid : ℤ} {o : Object} (ho : db.objects oid = some o)
    (hloc : o.place.up = nothing) (hcont : ∀ c, ¬Above nothing db.place c oid) :
    ∃ db', db.demolish oid = .ok db' ∧ db.Tends db' ∧ Demolished oid db db' := by
  have hoid : (db.objects oid).isSome = true := by simp [ho]
  obtain ⟨xs, hxs, -⟩ := children_eq h.kin hoid
  obtain ⟨db1, hr1, hps, hp1, hno⟩ := passChildren_eq h hoid hxs (children_bound h hoid hxs)
  have hoid1 : (db1.objects oid).isSome = true := (hp1.isSome oid).trans hoid
  obtain ⟨o1, ho1⟩ := Option.isSome_iff_exists.mp hoid1
  have hnil := hp1.tends.sound.kin.not_below_nil ((kin_isSome oid).trans hoid1)
  obtain ⟨⟨b, db2⟩, hr2, ht2, hcase⟩ := changeParent_eq hp1.tends.sound ho1 hnil (.inl rfl)
  have hs2 := ht2.sound
  obtain ⟨hb, hch⟩ : b = true ∧ db1.Chparented db2 oid nothing o1 := by
    rcases hcase with hch|⟨-, i, j, oi, oj, -, hj, -, hpj, -⟩
    · exact hch
    · exact absurd hpj (hp1.tends.sound.kin.not_below_nil (by simp [kin_some hj]))
  have hp2 := hch.passed ht2
  have hoid2 : (db2.objects oid).isSome = true := (hp2.isSome oid).trans hoid1
  obtain ⟨o2, ho2⟩ := Option.isSome_iff_exists.mp hoid2
  obtain ⟨db3, hr3, ht3, hlike⟩ := incrQuota_tends hs2 o2.owner
  obtain ⟨o3, ho3, hk3, hp3, -⟩ := hlike.some ho2
  have hup : o2.kin.up = nothing := by
    rw [← upOf_eq nothing (kin_some ho2), hch.up oid hoid1, Function.update_self]
  have hne : oid ≠ nothing := by
    rintro rfl
    rw [nothing_free] at ho
    cases ho
  have hfirst : o2.kin.first = nothing := by
    refine hs2.kin.first_nil (kin_some ho2) fun c hc => ?_
    obtain ⟨hcs, hu, -⟩ := above_upOf.mp hc
    rw [hch.up c hoid1] at hu
    by_cases hco : c = oid
    · subst hco
      rw [Function.update_self] at hu
      exact hne hu.symm
    · rw [Function.update_of_ne hco] at hu
      refine hno c (above_upOf.mpr ⟨?_, hu, hne⟩)
      rw [kin_isSome, ← hp2.isSome, ← kin_isSome]
      exact hcs
  have hplace : o2.place = o.place := by
    have := place_some ho2
    rw [hp2.place, hp1.place, place_some ho] at this
    exact (Option.some.inj this).symm
  have hcfirst : o.place.first = nothing := h.place.first_nil (place_some ho) hcont
  have hbarren : o3.kin.up = nothing ∧ o3.kin.first = nothing ∧ o3.place.up = nothing ∧
      o3.place.first = nothing := by
    rw [hk3, hp3, hplace]
    exact ⟨hup, hfirst, hloc, hcfirst⟩
  obtain ⟨db4, hr4, ht4⟩ := destroyObject_tends ho3 hbarren.1 hbarren.2.1 hbarren.2.2.1
    hbarren.2.2.2 ht3.sound
  refine ⟨db4, bind_ok.mpr ⟨db1, hr1, bind_ok.mpr ⟨_, hr2, bind_ok.mpr ⟨o2, object_ok ho2,
    bind_ok.mpr ⟨db3, hr3, hr4⟩⟩⟩⟩, ((hp1.tends.trans ht2).trans ht3).trans ht4, ?_⟩
  exact ⟨db1, db2, o2, db3, o3, hps, hb ▸ hr2, object_ok ho2, hr3, ho3, hbarren, hr4⟩

end Children

section Stages
variable (callVerb : CallVerb) {db : Db} (h : db.Sound)
include h

/-- The contents are out, and no verb is to be run for that. -/
structure Cleared (callVerb : CallVerb) (oid : ℤ) (db db' : Db) : Prop where
  emptied : db.Emptied db'
  contents : db'.contents oid = .ok []
  quiet : db.contents oid = .ok [] ∨ callVerb oid "exitfunc" ≠ .none

/-- How `moving_contents` ends: where there is no object; at the `exitfunc` of the object, for the
first of its contents; at that of its location; or with the object destroyed, from nowhere or after
it was moved there. -/
inductive Emptying (callVerb : CallVerb) (oid : ℤ) (db : Db) : Stage × Db → Prop
  | gone : db.valid oid = false → Emptying callVerb oid db (.done zero, db)
  | content {c : ℤ} {rest : List ℤ} {db' : Db} : db.contents oid = .ok (c::rest) →
      callVerb oid "exitfunc" = .none → db.changeLocation c nothing = .ok db' →
      Emptying callVerb oid db (.calls 2, db')
  | located {db1 db' : Db} {o : Object} : Cleared callVerb oid db db1 → db1.objects oid = some o →
      o.place.up ≠ nothing → callVerb o.place.up "exitfunc" = .none →
      db1.changeLocation oid nothing = .ok db' → Emptying callVerb oid db (.calls 2, db')
  | nowhere {db1 db' : Db} {o : Object} : Cleared callVerb oid db db1 → db1.objects oid = some o →
      o.place.up = nothing → Demolished oid db1 db' → Emptying callVerb oid db (.done zero, db')
  | moved {db1 db2 db' : Db} {o : Object} : Cleared callVerb oid db db1 → db1.objects oid = some o →
      o.place.up ≠ nothing → callVerb o.place.up "exitfunc" ≠ .none →
      db1.changeLocation oid nothing = .ok db2 → Demolished oid db2 db' →
      Emptying callVerb oid db (.done zero, db')

/-- How a stage of `recycle` ends. Only the first can fail, and only before it changes anything. -/
inductive Ended (callVerb : CallVerb) (oid progr : ℤ) (db : Db) : ℕ → Stage × Db → Prop
  | invalid : db.valid oid = false → Ended callVerb oid progr db 1 (.fails .invarg, db)
  | refused {o : Object} : db.objects oid = some o → db.controls progr o = false →
      Ended callVerb oid progr db 1 (.fails .perm, db)
  | called {o : Object} : db.objects oid = some o → db.controls progr o = true →
      callVerb oid "recycle" = .none → Ended callVerb oid progr db 1 (.calls 2, db)
  | begun {o : Object} {r : Stage × Db} : db.objects oid = some o → db.controls progr o = true →
      callVerb oid "recycle" ≠ .none → Emptying callVerb oid db r → Ended callVerb oid progr db 1 r
  | resumed {r : Stage × Db} : Emptying callVerb oid db r → Ended callVerb oid progr db 2 r

omit callVerb h in
theorem destroyObject_gone {oid : ℤ} {db' : Db} (hr : db.destroyObject oid = .ok db') :
    db'.valid oid = false := by
  rw [destroyObject] at hr
  split at hr
  · cases hr
  · split at hr
    · cases hr
    · obtain rfl := Except.ok.inj hr
      rw [valid, find_eq]
      simp [dropObject]

omit callVerb h in
theorem Demolished.gone {oid : ℤ} {db' : Db} (hd : Demolished oid db db') : db'.valid oid = false := by
  obtain ⟨_, _, _, _, _, _, _, _, _, _, _, hr⟩ := hd.steps
  exact destroyObject_gone hr

omit callVerb h in
theorem Emptying.done {callVerb : CallVerb} {oid : ℤ} {r : Stage × Db}
    (he : Emptying callVerb oid db r) (hr : r.1 = .done zero) : r.2.valid oid = false := by
  cases he with
  | gone hv => exact hv
  | nowhere _ _ _ hd => exact hd.gone
  | moved _ _ _ _ _ hd => exact hd.gone
  | _ => cases hr

theorem recycleContents_tends (oid : ℤ) :
    ∃ r, db.recycleContents callVerb oid = .ok r ∧ db.Tends r.2 ∧ Emptying callVerb oid db r := by
  rw [recycleContents, valid, find_eq]
  cases hoid : (db.objects oid).isSome with
  | false =>
    refine ⟨(.done zero, db), rfl, .refl h, .gone ?_⟩
    rw [valid, find_eq, hoid]
  | true =>
    obtain ⟨xs, hxs, -, -, hlen⟩ := contents_eq h.place hoid
    obtain ⟨⟨called, db1⟩, hr1, he1, hrun, hlast⟩ := moveContents_eq h.place callVerb hoid hxs hlen
    cases called with
    | true =>
      obtain ⟨hcalled, c, rest, rfl, hloc⟩ := hrun rfl
      exact ⟨(.calls 2, db1), bind_ok.mpr ⟨_, hr1, rfl⟩, he1.moved.tends h, .content hxs hcalled hloc⟩
    | false =>
      obtain ⟨hempty, hquiet⟩ := hlast rfl
      have hcleared : Cleared callVerb oid db db1 := by
        refine ⟨he1, hempty, hquiet.imp_left ?_⟩
        rintro rfl
        exact hxs
      have ht1 := he1.moved.tends h
      have hs1 := ht1.sound
      have hno := contents_nil hs1.place hempty
      have hoid1 : (db1.objects oid).isSome = true := (he1.moved.isSome oid).trans hoid
      obtain ⟨o1, ho1⟩ := Option.isSome_iff_exists.mp hoid1
      by_cases hloc : o1.place.up = nothing
      · obtain ⟨db', hr', ht', hd⟩ := demolish_tends hs1 ho1 hloc hno
        refine ⟨(.done zero, db'), bind_ok.mpr ⟨_, hr1, bind_ok.mpr ⟨o1, object_ok ho1, ?_⟩⟩,
          ht1.trans ht', .nowhere hcleared ho1 hloc hd⟩
        rw [if_neg (not_not.mpr hloc)]
        exact bind_ok.mpr ⟨db', hr', rfl⟩
      · obtain ⟨db2, hr2, hchange, he2, hout⟩ := moveToNothing_eq hs1.place callVerb hoid1
        rw [upOf_eq nothing (place_some ho1)] at hr2
        have ht2 := ht1.trans (he2.moved.tends hs1)
        by_cases hcalled : callVerb o1.place.up "exitfunc" = .none
        · rw [decide_eq_true hcalled] at hr2
          refine ⟨(.calls 2, db2), bind_ok.mpr ⟨_, hr1, bind_ok.mpr ⟨o1, object_ok ho1, ?_⟩⟩, ht2,
            .located hcleared ho1 hloc hcalled hchange⟩
          rw [if_pos hloc]
          exact bind_ok.mpr ⟨_, hr2, rfl⟩
        · rw [decide_eq_false hcalled] at hr2
          have hoid2 : (db2.objects oid).isSome = true := (he2.moved.isSome oid).trans hoid1
          obtain ⟨o2, ho2⟩ := Option.isSome_iff_exists.mp hoid2
          rw [upOf_eq nothing (place_some ho2)] at hout
          obtain ⟨db', hr', ht', hd⟩ :=
            demolish_tends ht2.sound ho2 hout fun c hc => hno c (he2.above hc)
          refine ⟨(.done zero, db'), bind_ok.mpr ⟨_, hr1, bind_ok.mpr ⟨o1, object_ok ho1, ?_⟩⟩,
            ht2.trans ht', .moved hcleared ho1 hloc hcalled hchange hd⟩
          rw [if_pos hloc]
          exact bind_ok.mpr ⟨_, hr2, bind_ok.mpr ⟨db', hr', rfl⟩⟩

/-- Every stage of `recycle` ends and leaves a sound database. -/
theorem recycle_tends {pc : ℕ} (hpc : pc ∈ [1, 2]) (oid progr : ℤ) :
    ∃ r, db.recycle callVerb pc oid progr = .ok r ∧ db.Tends r.2 ∧
      Ended callVerb oid progr db pc r := by
  simp only [List.mem_cons, List.not_mem_nil, or_false] at hpc
  obtain ⟨r, hr, ht, hemptying⟩ := recycleContents_tends callVerb h oid
  rcases hpc with rfl|rfl
  · rw [recycle, find_eq]
    cases ho : db.objects oid with
    | none =>
      refine ⟨_, rfl, .refl h, .invalid ?_⟩
      rw [valid, find_eq, ho, Option.isSome_none]
    | some o =>
      dsimp only
      cases hcontrols : db.controls progr o with
      | false => exact ⟨_, rfl, .refl h, .refused ho hcontrols⟩
      | true =>
        by_cases hcalled : callVerb oid "recycle" = .none
        · rw [if_pos hcalled]
          exact ⟨_, rfl, .refl h, .called ho hcontrols hcalled⟩
        · rw [if_neg hcalled]
          exact ⟨r, hr, ht, .begun ho hcontrols hcalled hemptying⟩
  · exact ⟨r, hr, ht, .resumed hemptying⟩

/-- The first stage of `create` ends and leaves a sound database. -/
theorem create_tends (parent owner progr : ℤ) :
    ∃ r, db.create callVerb parent owner progr = .ok r ∧ db.Tends r.2 := by
  rw [create]
  by_cases hdest : parent = nothing ∨ (db.objects parent).isSome = true
  · generalize (_ || (decide (owner ≠ progr) && !db.isWizard progr)) = refused
    cases refused with
    | true => exact ⟨_, rfl, .refl h⟩
    | false =>
      obtain ⟨⟨allowed, db1⟩, hr1, ht1, hlike⟩ := decrQuota_tends h owner
      cases allowed with
      | false => exact ⟨(.fails .quota, db1), bind_ok.mpr ⟨_, hr1, rfl⟩, ht1⟩
      | true =>
        let f : Object → Object := fun o => { o with
          owner := if owner = nothing then (db1.numObjects : ℤ) else owner }
        have ht2 : db1.createObject.Tends (db1.createObject.modify db1.numObjects f) := by
          have hs := createObject_sound ht1.sound
          have hl := modify_like db1.createObject db1.numObjects (f := f) fun _ => rfl
          refine .ofSame hs.kin ?_ ⟨rfl, rfl⟩ fun j => db1.createObject.modify_field
            (fun o => (o.defs, o.waifPropdefs)) f (fun _ => rfl) _ j
          refine hs.face (fun j => ?_) (hl.kin_eq ▸ hs.kin) (hl.place_eq ▸ hs.place) (le_refl _)
          exact db1.createObject.modify_field Object.face f (fun _ => rfl) _ j
        have hnew : db1.createObject.objects db1.numObjects = _ := createObject_self
        have ho2 := modify_self hnew f
        have hbar := barren ho2 ht2.sound.kin rfl
        have hnot : ¬Below nothing (db1.createObject.modify db1.numObjects f).kin parent
            db1.numObjects := by
          intro hb
          rcases Relation.ReflTransGen.cases_tail hb with he|⟨c, -, hc⟩
          · rcases hdest with rfl|hs
            · exact numObjects_ne_nothing he
            · rw [← hlike.isSome, ← he, next_free] at hs
              cases hs
          · exact hbar c hc
        have hdest2 : parent = nothing ∨
            ((db1.createObject.modify db1.numObjects f).objects parent).isSome = true := by
          refine hdest.imp_right fun hs => ?_
          rw [modify_isSome, createObject_ne, hlike.isSome]
          · exact hs
          · rintro rfl
            rw [← hlike.isSome, next_free] at hs
            cases hs
        obtain ⟨⟨b, db3⟩, hr3, ht3, -⟩ := changeParent_eq ht2.sound ho2 hnot hdest2
        have htall := ((ht1.trans (createObject_tends ht1.sound)).trans ht2).trans ht3
        cases hcall : callVerb db1.numObjects "initialize" with
        | none =>
          exact ⟨(.calls 2, db3), bind_ok.mpr ⟨_, hr1, bind_ok.mpr ⟨_, hr3, by
            simp only [hcall, pure, Except.pure]⟩⟩, htall⟩
        | maxrec =>
          exact ⟨(.fails .maxrec, db3), bind_ok.mpr ⟨_, hr1, bind_ok.mpr ⟨_, hr3, by
            simp only [hcall, pure, Except.pure]⟩⟩, htall⟩
        | _ =>
          exact ⟨(.done (.obj (BitVec.ofInt 64 db1.numObjects)), db3),
            bind_ok.mpr ⟨_, hr1, bind_ok.mpr ⟨_, hr3, by
              simp only [hcall, pure, Except.pure]⟩⟩, htall⟩
  · rw [not_or, Option.not_isSome_iff_eq_none] at hdest
    rw [find_eq, hdest.2]
    simp only [ne_eq, hdest.1, not_false_eq_true, decide_true, Bool.true_or, if_true]
    exact ⟨_, rfl, .refl h⟩

omit callVerb in
theorem renumber_tends (oid progr : ℤ) : ∃ r, db.renumber oid progr = .ok r ∧ db.Tends r.2 := by
  rw [renumber, valid, find_eq]
  cases hoid : (db.objects oid).isSome with
  | false => exact ⟨_, rfl, .refl h⟩
  | true =>
    cases db.isWizard progr with
    | false => exact ⟨_, rfl, .refl h⟩
    | true =>
      obtain ⟨r, hr, hs⟩ := renumberObject_tends h hoid
      exact ⟨_, bind_ok.mpr ⟨r, hr, rfl⟩, hs⟩

omit callVerb in
theorem resetLastUsedObjid_tends {db' : Db} (hr : db.resetLastUsedObjid = .ok db') :
    db.Tends db' := by
  rw [resetLastUsedObjid] at hr
  split at hr
  · cases hr
  · obtain rfl := Except.ok.inj hr
    have hf : ∀ i, (db.objects i).map Object.face = (db.objects i).map Object.face := fun _ => rfl
    exact .ofSame h.kin (h.face hf h.kin h.place (le_refl _)) ⟨rfl, rfl⟩ fun _ => rfl

end Stages

end Db
end LambdaMoo.Database
