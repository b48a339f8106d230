import LambdaMoo.Locations

/-!
# Renumbering objects

An object under a new number is the same object, with every link to it
following.
-/

set_option autoImplicit false

namespace LambdaMoo.Database
namespace Db

open Forest

/-- A database with one object under a new number. -/
structure Relabelled (db db1 : Db) (old new : ℤ) : Prop where
  uid : db1.nextUid = db.nextUid
  heap : db1.wpds = db.wpds ∧ db1.nextWpd = db.nextWpd
  kin : db1.kin = relabel db.kin old new
  place : db1.place = relabel db.place old new
  each : ∀ i o, db.objects i = some o → ∃ o1, db1.objects (redirect old new i) = some o1 ∧
    o1.propdefs = o.propdefs ∧ o1.propval = o.propval ∧ o1.verbdefs = o.verbdefs ∧
    o1.waifPropdefs = o.waifPropdefs
  back : ∀ j o1, db1.objects j = some o1 → ∃ i, (db.objects i).isSome = true ∧
    j = redirect old new i

/-- The object at its new number, with every link to it renamed. -/
def relinkedTo (db : Db) (old new : ℤ) (hb : 0 ≤ new ∧ new < db.numObjects) : Db :=
  ((db.moveObject old new hb).setKin (relabel db.kin old new)).setPlace (relabel db.place old new)

section Relabel
variable {db : Db} {old new : ℤ} {o : Object} (ho : db.objects old = some o)
  (hn : db.objects new = none)
include ho hn

theorem old_ne_new : old ≠ new := by
  rintro rfl
  rw [hn] at ho
  cases ho

theorem relabel_isSome {heap : Heap ℤ} (hsome : ∀ i, (heap i).isSome = (db.objects i).isSome)
    (hb : 0 ≤ new ∧ new < db.numObjects) (i : ℤ) :
    (relabel heap old new i).isSome = ((db.moveObject old new hb).objects i).isSome := by
  rw [relabel, moveObject]
  by_cases h1 : i = new
  · simp [h1, hsome]
  · by_cases h2 : i = old
    · simp [h2, old_ne_new ho hn]
    · simp [h1, h2, hsome]

theorem relinkedTo_relabelled (hb : 0 ≤ new ∧ new < db.numObjects) :
    db.Relabelled (db.relinkedTo old new hb) old new := by
  have hon := old_ne_new ho hn
  have hk := relabel_isSome ho hn kin_isSome hb
  have hp : ∀ i, (relabel db.place old new i).isSome =
      (((db.moveObject old new hb).setKin (relabel db.kin old new)).objects i).isSome := by
    intro i
    rw [relabel_isSome ho hn place_isSome hb]
    simp [setKin, mapObjects]
  have hmove : ∀ i, (db.objects i).isSome = true →
      (db.moveObject old new hb).objects (redirect old new i) = db.objects i := by
    intro i hi
    by_cases hio : i = old
    · simp [moveObject, redirect, hio]
    · have hin : i ≠ new := by
        rintro rfl
        rw [hn] at hi
        cases hi
      simp [moveObject, redirect, hio, hin]
  refine ⟨rfl, ⟨rfl, rfl⟩, ?_, setPlace_place hp, fun i oi hoi => ?_, fun j o1 hj => ?_⟩
  · rw [relinkedTo, setPlace_kin, setKin_kin hk]
  · have := hmove i (by simp [hoi])
    rw [hoi] at this
    refine ⟨{ oi with
      kin := (relabel db.kin old new (redirect old new i)).getD oi.kin
      place := (relabel db.place old new (redirect old new i)).getD oi.place }, ?_, rfl, rfl, rfl, rfl⟩
    simp only [relinkedTo, setPlace, setKin, mapObjects, this, Option.map_some]
  · have hs : ((db.moveObject old new hb).objects j).isSome = true := by
      have : ((db.relinkedTo old new hb).objects j).isSome = true := by simp [hj]
      simpa [relinkedTo, setPlace, setKin, mapObjects] using this
    by_cases h1 : j = new
    · exact ⟨old, by simp [ho], by simp [redirect, h1]⟩
    · by_cases h2 : j = old
      · simp [moveObject, h2, hon] at hs
      · exact ⟨j, by simpa [moveObject, h1, h2] using hs, by simp [redirect, h2]⟩

end Relabel

namespace Relabelled
variable {db db1 : Db} {old new : ℤ} (h1 : db.Relabelled db1 old new) (h : db.Sound) {o : Object}
  (ho : db.objects old = some o) (hn : db.objects new = none) (hnew : new ≠ nothing)
include h1 h ho hn hnew

omit h1 h ho hnew in
theorem ne_new {i : ℤ} (hi : (db.objects i).isSome = true) : i ≠ new := by
  rintro rfl
  rw [hn] at hi
  cases hi

omit h1 ho in
theorem up_ne_new {i : ℤ} {oi : Object} (hi : db.objects i = some oi) : oi.kin.up ≠ new := by
  intro he
  have hu := h.kin.up i oi.kin (kin_some hi)
  rw [he, kin_isSome, hn] at hu
  simp [hnew] at hu

omit h hnew in
theorem up_eq {i : ℤ} {oi o1 : Object} (hi : db.objects i = some oi)
    (h1i : db1.objects (redirect old new i) = some o1) :
    o1.kin.up = redirect old new oi.kin.up := by
  have hk := kin_some h1i
  rw [h1.kin, relabel_redirect (old_ne_new ho hn) i (ne_new hn (by simp [hi])), kin_some hi,
    Option.map_some] at hk
  rw [← Option.some.inj hk]
  rfl

omit hnew in
theorem below {a b : ℤ} (hb : Below nothing db1.kin a b) {i : ℤ}
    (hi : (db.objects i).isSome = true) (ha : a = redirect old new i) :
    ∃ j, (db.objects j).isSome = true ∧ b = redirect old new j ∧ Below nothing db.kin i j := by
  induction hb with
  | refl => exact ⟨i, hi, ha, .refl⟩
  | @tail b c _ hbc ih =>
    obtain ⟨j, hj, rfl, hij⟩ := ih
    obtain ⟨oj, hoj⟩ := Option.isSome_iff_exists.mp hj
    obtain ⟨o1, ho1, hup, hne⟩ := above_iff.mp hbc
    rw [h1.up_eq ho hn hoj ho1] at hup
    have hjn : oj.kin.up ≠ nothing := by
      intro he
      apply hne
      rw [← hup, he, redirect, if_neg]
      rintro rfl
      rw [nothing_free] at ho
      cases ho
    have ha : Above nothing db.kin j oj.kin.up := above_iff.mpr ⟨oj, hoj, rfl, hjn⟩
    refine ⟨oj.kin.up, ?_, hup.symm, hij.tail ha⟩
    rw [← kin_isSome]
    exact (h.kin.above_isSome ha).2

omit h ho hnew in
theorem uids_eq {i : ℤ} (hi : i ≠ new) : db1.uids (redirect old new i) = db.uids i := by
  cases hoi : db.objects i with
  | some oi =>
    obtain ⟨o1, ho1, -, hv, -⟩ := h1.each i oi hoi
    rw [uids_some hoi, uids_some ho1, hv]
  | none =>
    have hnone : db1.objects (redirect old new i) = none := by
      cases hx : db1.objects (redirect old new i) with
      | none => rfl
      | some o1 =>
        obtain ⟨j, hj, he⟩ := h1.back _ o1 hx
        rw [← redirect_inj hi (ne_new hn hj) he, hoi] at hj
        cases hj
    rw [uids_none hoi, uids_none hnone]

omit h ho hn hnew in
theorem find {j : ℤ} {o1 : Object} (hj : db1.objects j = some o1) :
    ∃ i oi, db.objects i = some oi ∧ j = redirect old new i ∧ o1.propdefs = oi.propdefs ∧
      o1.propval = oi.propval ∧ o1.waifPropdefs = oi.waifPropdefs := by
  obtain ⟨i, hi, rfl⟩ := h1.back j o1 hj
  obtain ⟨oi, hoi⟩ := Option.isSome_iff_exists.mp hi
  obtain ⟨o2, ho2, hp, hv, -, hw⟩ := h1.each i oi hoi
  obtain rfl := Option.some.inj (hj.symm.trans ho2)
  exact ⟨i, oi, hoi, rfl, hp, hv, hw⟩

theorem sound : db1.Sound := by
  refine ⟨?_, ?_, ⟨fun a b oa ob ha hb hab p hp q hq he => ?_, fun a oa ha p hp => ?_,
    fun a oa ha => ?_, fun a b oa ob ha hb p hp q hq he => ?_⟩, fun a oa ha => ?_,
    fun a oa ha pv hpv => ?_⟩
  · rw [h1.kin]
    exact h.kin.relabel (kin_some ho) (by simp [Db.kin, hn]) hnew
  · rw [h1.place]
    exact h.place.relabel (place_some ho) (by simp [Db.place, hn]) hnew
  · obtain ⟨i, oi, hi, rfl, hpi, -⟩ := h1.find ha
    obtain ⟨j, oj, hj, rfl, hpj, -⟩ := h1.find hb
    obtain ⟨j', hj', hjj, hij⟩ := h1.below h ho hn hab (by simp [hi]) rfl
    obtain rfl := redirect_inj (ne_new hn (by simp [hj])) (ne_new hn hj') hjj
    rw [hpi] at hp
    rw [hpj] at hq
    obtain ⟨rfl, hpq⟩ := h.named.apart i j oi oj hi hj hij p hp q hq he
    exact ⟨rfl, hpq⟩
  · obtain ⟨i, oi, hi, rfl, hpi, -⟩ := h1.find ha
    rw [h1.uid]
    exact h.named.made i oi hi p (hpi ▸ hp)
  · obtain ⟨i, oi, hi, rfl, hpi, -⟩ := h1.find ha
    rw [hpi]
    exact h.named.once i oi hi
  · obtain ⟨i, oi, hi, rfl, hpi, -⟩ := h1.find ha
    obtain ⟨j, oj, hj, rfl, hpj, -⟩ := h1.find hb
    rw [h.named.single i j oi oj hi hj p (hpi ▸ hp) q (hpj ▸ hq) he]
  · obtain ⟨i, oi, hi, rfl, hpi, -⟩ := h1.find ha
    rw [h1.up_eq ho hn hi ha, h1.uids_eq hn (ne_new hn (by simp [hi])),
      h1.uids_eq hn (up_ne_new h hn hnew hi), hpi]
    exact h.order i oi hi
  · obtain ⟨i, oi, hi, rfl, hpi, hvi, -⟩ := h1.find ha
    rw [hpi, hvi] at hpv
    exact h.own i oi hi pv hpv

omit h hnew in
/-- A line of ancestors goes through the same objects under their new numbers. -/
theorem lineage (hk : IsForest nothing db.kin) {i : ℤ} {chain : List (ℤ × Object)}
    (hl : db.Lineage i chain) (hi : i ≠ new) :
    ∃ chain1, db1.Lineage (redirect old new i) chain1 ∧
      chain1.map (fun a => a.2.propdefs) = chain.map fun a => a.2.propdefs := by
  induction hl with
  | @nil i hnone =>
    refine ⟨[], .nil ?_, rfl⟩
    cases hx : db1.objects (redirect old new i) with
    | none => rfl
    | some o1 =>
      obtain ⟨j, hj, he⟩ := h1.back _ o1 hx
      rw [← redirect_inj hi (ne_new hn hj) he, hnone] at hj
      cases hj
  | @cons i oi rest hoi hrest ih =>
    obtain ⟨o1, ho1, hp, -⟩ := h1.each i oi hoi
    by_cases hu : oi.kin.up = nothing
    · rw [hu] at hrest
      obtain rfl := hrest.unique (.nil nothing_free)
      refine ⟨[(redirect old new i, o1)], .cons ho1 ?_, by simp [hp]⟩
      have hold : nothing ≠ old := by
        rintro rfl
        rw [nothing_free] at ho
        cases ho
      rw [h1.up_eq ho hn hoi ho1, hu, redirect, if_neg hold]
      exact .nil nothing_free
    · have hs : (db.objects oi.kin.up).isSome = true := by
        rw [← kin_isSome]
        exact (hk.up i oi.kin (kin_some hoi)).resolve_left hu
      obtain ⟨rest1, hl1, hm⟩ := ih (ne_new hn hs)
      refine ⟨(redirect old new i, o1)::rest1, .cons ho1 ?_, by simp [hp, hm]⟩
      rw [h1.up_eq ho hn hoi ho1]
      exact hl1

theorem tends : db.Tends db1 := by
  refine ⟨h1.sound h ho hn hnew, fun hc => ⟨fun a oa ha w hw => ?_, fun a oa ha w hw chain1 hl1 => ?_,
    fun a b oa ob ha hb w hwa hwb => ?_⟩, le_of_eq h1.heap.2.symm, fun w _ => by rw [h1.heap.1]⟩
  · obtain ⟨i, oi, hi, rfl, -, -, hwi⟩ := h1.find ha
    rw [h1.heap.2]
    exact hc.made i oi hi w (hwi ▸ hw)
  · obtain ⟨i, oi, hi, rfl, -, -, hwi⟩ := h1.find ha
    obtain ⟨chain, -, hl⟩ := ancestors_eq h.kin i
    obtain ⟨chain2, hl2, hm⟩ := h1.lineage ho hn h.kin hl (ne_new hn (by simp [hi]))
    obtain rfl := hl2.unique hl1
    rw [h1.heap.1, hc.list i oi hi w (hwi ▸ hw) chain hl]
    exact (waifDefs_congr hm).symm
  · obtain ⟨i, oi, hi, rfl, -, -, hwi⟩ := h1.find ha
    obtain ⟨j, oj, hj, rfl, -, -, hwj⟩ := h1.find hb
    rw [hc.apart i j oi oj hi hj w (hwi ▸ hwa) (hwj ▸ hwb)]

end Relabelled

theorem renameOwners_shape (old new : ℤ) (count : ℕ) (o : Object) :
    (renameOwners old new count o).shape = o.shape := rfl

theorem renameOwners_marks (old new : ℤ) (count : ℕ) (o : Object) :
    (renameOwners old new count o).propval.map Pval.mark = o.propval.map Pval.mark := by
  simp only [renameOwners, List.map_append, List.map_map]
  rw [show Pval.mark ∘ (fun p : Pval => { p with owner := renameOwner old new p.owner }) = Pval.mark
    from rfl, ← List.map_append, List.take_append_drop]

/-- The owners of everything are renamed. -/
theorem fixOwners_tends {db : Db} (h : db.Sound) (old new : ℤ) :
    ∃ db', db.fixOwners old new = .ok db' ∧ db.Tends db' := by
  rw [fixOwners]
  generalize List.range db.numObjects = is
  induction is generalizing db with
  | nil => exact ⟨db, rfl, .refl h⟩
  | cons i is ih =>
    rw [List.foldlM_cons]
    cases ho : db.objects i with
    | none => exact ih h
    | some o =>
      have hc := h.order.countProperties h.kin i
      rw [uids_length ho] at hc
      have hlike : db.Like (db.modify i (renameOwners old new o.propval.length)) :=
        modify_like db i (renameOwners_shape old new _)
      have ht : db.Tends (db.modify i (renameOwners old new o.propval.length)) := by
        refine .ofSame h.kin ?_ ⟨rfl, rfl⟩ fun j => db.modify_field (fun o => (o.defs, o.waifPropdefs))
          (renameOwners old new o.propval.length) (fun _ => rfl) i j
        refine h.face (fun j => ?_) (hlike.kin_eq ▸ h.kin) (hlike.place_eq ▸ h.place) (le_refl _)
        apply db.modify_field
        intro o'
        rw [Object.face, Object.face, renameOwners_marks]
        rfl
      obtain ⟨db', hdb', ht'⟩ := ih ht.sound
      refine ⟨db', bind_ok.mpr ⟨_, bind_ok.mpr ⟨_, hc, ?_⟩, hdb'⟩, ht.trans ht'⟩
      rw [if_pos (le_refl _)]
      rfl

theorem freeBelow_some {db : Db} {old : ℤ} {new : ℕ} (h : db.freeBelow old = some new) :
    new < db.numObjects ∧ db.objects new = none := by
  have hm := List.mem_range.mp (List.mem_of_find?_eq_some h)
  have hs := List.find?_some h
  exact ⟨by omega, Option.isNone_iff_eq_none.mp hs⟩

/-- The user list and the verb cache follow; the owners are still the old ones. -/
def usersRenamed (db : Db) (old new : ℤ) (hb : 0 ≤ new ∧ new < db.numObjects) : Db :=
  { db.relinkedTo old new hb with
    allUsers := if (db.relinkedTo old new hb).isUser new then replaceUser old new db.allUsers
      else db.allUsers
    vcTable := db.affectedCallableVerbLookup.vcTable }

theorem renumberObject_none {db : Db} {old : ℤ} (hfree : db.freeBelow old = none) :
    db.renumberObject old = .ok (old, db.affectedCallableVerbLookup) := by
  unfold renumberObject
  split
  · rfl
  · next n hsome => cases hfree.symm.trans hsome

/-- Where a number is free the walks through the lists of children and contents find the object, and
what is left is the loop over the owners. -/
theorem renumberObject_eq {db : Db} (hk : IsForest nothing db.kin) (hp : IsForest nothing db.place)
    {old : ℤ} {o : Object} (ho : db.objects old = some o) {new : ℕ}
    (hfree : db.freeBelow old = some new) (hb : (0 : ℤ) ≤ new ∧ (new : ℤ) < db.numObjects) :
    db.renumberObject old = (db.usersRenamed old new hb).fixOwners old new >>=
      fun db' => pure ((new : ℤ), db') := by
  obtain ⟨-, hn⟩ := freeBelow_some hfree
  have hkin := rename_eq hk (kin_some ho) (show db.kin new = none by simp [kin, hn]) db.kin_small
  have hplace := rename_eq hp (place_some ho) (show db.place new = none by simp [place, hn])
    db.place_small
  unfold renumberObject
  split
  · next hnone => cases hnone.symm.trans hfree
  · next n hsome =>
    obtain rfl := Option.some.inj (hfree.symm.trans hsome)
    rw [hkin, hplace]
    rfl

/-- An object that exists can be renumbered, and the database stays sound. -/
theorem renumberObject_tends {db : Db} (h : db.Sound) {old : ℤ}
    (hold : (db.objects old).isSome = true) :
    ∃ r, db.renumberObject old = .ok r ∧ db.Tends r.2 := by
  obtain ⟨o, ho⟩ := Option.isSome_iff_exists.mp hold
  cases hfree : db.freeBelow old with
  | none =>
    have hf : ∀ i, (db.affectedCallableVerbLookup.objects i).map Object.face =
        (db.objects i).map Object.face := fun _ => rfl
    exact ⟨_, renumberObject_none hfree,
      .ofSame h.kin (h.face hf h.kin h.place (le_refl _)) ⟨rfl, rfl⟩ fun _ => rfl⟩
  | some new =>
    obtain ⟨hlt, hn⟩ := freeBelow_some hfree
    have hnew : (new : ℤ) ≠ nothing := by
      rw [nothing]
      omega
    have hb : (0 : ℤ) ≤ new ∧ (new : ℤ) < db.numObjects := by omega
    have ht := (relinkedTo_relabelled ho hn hb).tends h ho hn hnew
    have hs := ht.sound
    have ht2 : (db.relinkedTo old new hb).Tends (db.usersRenamed old new hb) := by
      refine .ofSame hs.kin (hs.face ?_ hs.kin hs.place (le_refl _)) ⟨rfl, rfl⟩ fun _ => rfl
      exact fun _ => rfl
    obtain ⟨db', hdb', ht'⟩ := fixOwners_tends ht2.sound old new
    refine ⟨(new, db'), ?_, (ht.trans ht2).trans ht'⟩
    rw [renumberObject_eq h.kin h.place ho hfree hb]
    exact bind_ok.mpr ⟨db', hdb', rfl⟩

end Db
end LambdaMoo.Database
