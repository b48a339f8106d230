import LambdaMoo.Renumber
import LambdaMoo.Users

/-!
# Renumbering is a renaming

The database after `db_renumber_object` is the one before with the new number
in place of the old one, in every link and in every owner. What belonged to the
number before it was recycled belongs to nobody. In the list of users, the first
place of the object follows it, if it is a user.
-/

set_option autoImplicit false

namespace LambdaMoo.Database

open Forest

/-- An object with the old number renamed in its links and its owners. -/
def Object.renamed (old new : ℤ) (o : Object) : Object := { o with
  owner := Db.renameOwner old new o.owner
  kin := o.kin.redirect old new
  place := o.place.redirect old new
  verbdefs := o.verbdefs.map fun v => { v with owner := Db.renameOwner old new v.owner }
  propval := o.propval.map fun p => { p with owner := Db.renameOwner old new p.owner } }

namespace Db

/-- Every object has as many slots as it has properties. -/
def Slotted (db : Db) : Prop :=
  ∀ i o, db.objects i = some o → db.countProperties i = .ok o.propval.length

/-- A database is another one with a number renamed, apart from the list of users and the verb
cache. -/
structure Renamed (db db' : Db) (old new : ℤ) : Prop where
  objects : ∀ i, db'.objects i = if i = new then (db.objects old).map (Object.renamed old new)
    else if i = old then none else (db.objects i).map (Object.renamed old new)
  numObjects : db'.numObjects = db.numObjects
  nextUid : db'.nextUid = db.nextUid
  wpds : db'.wpds = db.wpds ∧ db'.nextWpd = db.nextWpd

theorem renameOwners_all (old new : ℤ) (o : Object) :
    renameOwners old new o.propval.length o = { o with
      owner := renameOwner old new o.owner
      verbdefs := o.verbdefs.map fun v => { v with owner := renameOwner old new v.owner }
      propval := o.propval.map fun p => { p with owner := renameOwner old new p.owner } } := by
  rw [renameOwners, List.take_length, List.drop_length, List.append_nil]

/-- The fields that are not an object's. -/
structure SameRest (db db' : Db) : Prop where
  users : db'.allUsers = db.allUsers
  numObjects : db'.numObjects = db.numObjects
  nextUid : db'.nextUid = db.nextUid
  wpds : db'.wpds = db.wpds ∧ db'.nextWpd = db.nextWpd

/-- An object with its owners renamed. -/
def owned (old new : ℤ) (o : Object) : Object := renameOwners old new o.propval.length o

theorem Slotted.modify {db : Db} (hf : IsForest nothing db.kin) (h : db.Slotted) (old new : ℤ)
    (count : ℕ) (i : ℤ) : IsForest nothing (db.modify i (renameOwners old new count)).kin ∧
      (db.modify i (renameOwners old new count)).Slotted := by
  have hlike : db.Like (db.modify i (renameOwners old new count)) := modify_like db i fun _ => rfl
  refine ⟨hlike.kin_eq ▸ hf, ?_⟩
  intro j o' ho'
  rw [hlike.countProperties hf]
  have hlen := db.modify_field (fun o => o.propval.length) (renameOwners old new count)
    (fun o => by
      rw [renameOwners, List.length_append, List.length_map, ← List.length_append,
        List.take_append_drop]) i j
  rw [ho', Option.map_some] at hlen
  obtain ⟨o, ho, hl⟩ := Option.map_eq_some_iff.mp hlen.symm
  rw [h j o ho, hl]

/-- One round of the loop over all objects. -/
def fixOwner (old new : ℤ) (db : Db) (i : ℕ) : Result Db :=
  match db.objects i with
  | none => .ok db
  | some o => do
    let count ← db.countProperties i
    if count ≤ o.propval.length then return db.modify i (renameOwners old new count)
    else .error (.undefined "propval out of bounds")

theorem fixOwner_fold {db : Db} (hf : IsForest nothing db.kin) (hs : db.Slotted) (old new : ℤ)
    {is : List ℕ} (hn : is.Nodup) :
    ∃ db', is.foldlM (fixOwner old new) db = .ok db' ∧ db.SameRest db' ∧
      (∀ i ∈ is, db'.objects i = (db.objects i).map (owned old new)) ∧
      ∀ j, (∀ i ∈ is, (i : ℤ) ≠ j) → db'.objects j = db.objects j := by
  induction is generalizing db with
  | nil => exact ⟨db, rfl, ⟨rfl, rfl, rfl, rfl, rfl⟩, by simp, fun _ _ => rfl⟩
  | cons i is ih =>
    obtain ⟨hi, hn⟩ := List.nodup_cons.mp hn
    rw [List.foldlM_cons, fixOwner]
    have hout : ∀ j ∈ is, (j : ℤ) ≠ (i : ℤ) := by
      intro j hj heq
      exact hi (Int.ofNat_inj.mp heq ▸ hj)
    cases ho : db.objects i with
    | none =>
      obtain ⟨db', hdb', hrest, hin, hoff⟩ := ih hf hs hn
      refine ⟨db', hdb', hrest, ?_, ?_⟩
      · intro j hj
        rcases List.mem_cons.mp hj with rfl|hj
        · rw [hoff j hout, ho]
          rfl
        · exact hin j hj
      · intro j hj
        exact hoff j fun k hk => hj k (List.mem_cons_of_mem _ hk)
    | some o =>
      obtain ⟨hf', hs'⟩ := hs.modify hf old new o.propval.length i
      obtain ⟨db', hdb', hrest, hin, hoff⟩ := ih hf' hs' hn
      refine ⟨db', ?_, ⟨hrest.users, hrest.numObjects, hrest.nextUid, hrest.wpds⟩, ?_, ?_⟩
      · exact bind_ok.mpr ⟨_, bind_ok.mpr ⟨_, hs i o ho, if_pos le_rfl⟩, hdb'⟩
      · intro j hj
        rcases List.mem_cons.mp hj with rfl|hj
        · rw [hoff j hout, modify_self ho, ho]
          rfl
        · rw [hin j hj, modify_ne db (hout j hj)]
      · intro j hj
        rw [hoff j fun k hk => hj k (List.mem_cons_of_mem _ hk),
          modify_ne db (hj i List.mem_cons_self).symm]

theorem fixOwners_owned {db : Db} (hf : IsForest nothing db.kin) (hs : db.Slotted) (old new : ℤ) :
    ∃ db', db.fixOwners old new = .ok db' ∧ db.SameRest db' ∧
      ∀ i, db'.objects i = (db.objects i).map (owned old new) := by
  obtain ⟨db', hdb', hrest, hin, hoff⟩ := fixOwner_fold hf hs old new
    (List.nodup_range (n := db.numObjects))
  refine ⟨db', hdb', hrest, ?_⟩
  intro j
  by_cases hj : ∃ i ∈ List.range db.numObjects, (i : ℤ) = j
  · obtain ⟨i, hi, rfl⟩ := hj
    exact hin i hi
  · have hnone : db.objects j = none := by
      cases ho : db.objects j with
      | none => rfl
      | some o =>
        have hb := db.bounded j (by simp [ho])
        exact absurd ⟨j.toNat, List.mem_range.mpr (by omega), by omega⟩ hj
    rw [hoff j fun i hi heq => hj ⟨i, hi, heq⟩, hnone]
    rfl

theorem Relabelled.slotted {db db1 : Db} {old new : ℤ} (h1 : db.Relabelled db1 old new)
    (hk : IsForest nothing db.kin) (hk1 : IsForest nothing db1.kin) {o : Object}
    (ho : db.objects old = some o) (hn : db.objects new = none) (hs : db.Slotted) :
    db1.Slotted := by
  intro j o1 hj
  obtain ⟨i, oi, hi, rfl, -, hv, -⟩ := h1.find hj
  obtain ⟨chain, -, hl⟩ := ancestors_eq hk i
  obtain ⟨chain1, hl1, hm⟩ := h1.lineage ho hn hk hl (ne_new hn (by simp [hi]))
  have hsum := congrArg (List.map List.length) hm
  rw [List.map_map, List.map_map] at hsum
  have hc := hs i oi hi
  rw [hl.countProperties hk] at hc
  rw [hl1.countProperties hk1, hv, ← hc]
  exact congrArg (fun l => Except.ok (List.sum l)) hsum

theorem map_redirect_of_not_mem {old new : ℤ} {xs : List ℤ} (h : old ∉ xs) :
    xs.map (redirect old new) = xs := by
  conv_rhs => rw [← List.map_id xs]
  apply List.map_congr_left
  intro x hx
  have hne : x ≠ old := by
    rintro rfl
    exact h hx
  rw [redirect, if_neg hne, id]

theorem not_mem_redirect {old new : ℤ} (hne : old ≠ new) (xs : List ℤ) :
    old ∉ xs.map (redirect old new) := by
  intro h
  obtain ⟨x, -, hx⟩ := List.mem_map.mp h
  rw [redirect] at hx
  split at hx
  · exact hne hx.symm
  · next hx' => exact hx' hx

theorem map_redirect_eq {old new : ℤ} (hne : old ≠ new) {xs : List ℤ} :
    xs = xs.map (redirect old new) ↔ old ∉ xs := by
  constructor
  · intro h hold
    exact not_mem_redirect hne xs (h ▸ hold)
  · exact fun h => (map_redirect_of_not_mem h).symm

theorem replaceUser_absent {old new : ℤ} {users : List ℤ} (h : old ∉ users) :
    replaceUser old new users = users := by
  have hnone : users.findIdx? (· = old) = none := by
    rw [List.findIdx?_eq_none_iff]
    intro x hx
    exact decide_eq_false fun he => h (he ▸ hx)
  rw [replaceUser, hnone]

/-- The list of users follows when the object is in it once and is a user, or is not in it. -/
theorem fixedUsers_iff {old new : ℤ} (hne : old ≠ new) (users : List ℤ) (user : Bool) :
    (if user then replaceUser old new users else users) = users.map (redirect old new) ↔
      (old ∈ users → user = true ∧ users.count old = 1) := by
  by_cases hold : old ∈ users
  · cases user with
    | false =>
      rw [if_neg Bool.false_ne_true, map_redirect_eq hne]
      simp [hold]
    | true =>
      obtain ⟨pre, post, rfl, hpre⟩ := List.eq_append_cons_of_mem hold
      rw [if_pos rfl, replaceUser_split hpre, List.map_append, List.map_cons,
        map_redirect_of_not_mem hpre, redirect, if_pos rfl, List.append_cancel_left_eq,
        List.cons.injEq, map_redirect_eq hne, List.count_append, List.count_cons_self,
        List.count_eq_zero_of_not_mem hpre]
      simp [hold, List.count_eq_zero]
  · rw [replaceUser_absent hold, ite_self, map_redirect_of_not_mem hold]
    simp [hold]

def relinked (old new : ℤ) (o : Object) : Object := { o with
  kin := o.kin.redirect old new
  place := o.place.redirect old new }

theorem relinkedTo_objects {db : Db} {old new : ℤ} (hon : old ≠ new)
    (hb : 0 ≤ new ∧ new < db.numObjects) (i : ℤ) : (db.relinkedTo old new hb).objects i =
      if i = new then (db.objects old).map (relinked old new)
      else if i = old then none else (db.objects i).map (relinked old new) := by
  have hobj : ∀ i, (db.relinkedTo old new hb).objects i =
      ((db.moveObject old new hb).objects i).map fun o =>
        { o with
          kin := (relabel db.kin old new i).getD o.kin
          place := (relabel db.place old new i).getD o.place } := by
    intro i
    show (((db.moveObject old new hb).objects i).map _).map _ = _
    rw [Option.map_map]
    rfl
  rw [hobj]
  by_cases hi : i = new
  · subst hi
    cases ho : db.objects old with
    | none => simp [moveObject, ho]
    | some o => simp [moveObject, ho, relabel, kin, place, relinked]
  · by_cases hi' : i = old
    · subst hi'
      simp [moveObject, hon]
    · cases ho : db.objects i with
      | none => simp [moveObject, hi, hi', ho]
      | some o => simp [moveObject, hi, hi', ho, relabel, kin, place, relinked]

theorem owned_relinked (old new : ℤ) (o : Object) :
    owned old new (relinked old new o) = o.renamed old new := by
  rw [owned, renameOwners_all]
  rfl

/-- Renumbering renames the old number in every object and changes nothing else, and the list of users
is renamed as well exactly when the object is in it once and is a user, or is not in it. -/
theorem renumberObject_renames {db : Db} (hf : db.Forested) (hs : db.Slotted) {old : ℤ}
    (hold : db.valid old = true) {new : ℕ} (hfree : db.freeBelow old = some new) :
    ∃ db', db.renumberObject old = .ok ((new : ℤ), db') ∧ db.Renamed db' old new ∧
      (db'.allUsers = db.allUsers.map (redirect old new) ↔
        (old ∈ db.allUsers → db.isUser old = true ∧ db.allUsers.count old = 1)) := by
  rw [valid, find_eq] at hold
  obtain ⟨o, ho⟩ := Option.isSome_iff_exists.mp hold
  obtain ⟨hlt, hn⟩ := freeBelow_some hfree
  have hnew : (new : ℤ) ≠ nothing := by
    rw [nothing]
    omega
  have hb : (0 : ℤ) ≤ new ∧ (new : ℤ) < db.numObjects := by omega
  have h1 := relinkedTo_relabelled ho hn hb
  have hk1 := hf.kin.relabel (kin_some ho) (show db.kin new = none by simp [kin, hn]) hnew
  rw [← h1.kin] at hk1
  have hlike : (db.relinkedTo old new hb).Like (db.usersRenamed old new hb) := ⟨rfl, fun _ => rfl⟩
  have hslotted : (db.usersRenamed old new hb).Slotted := by
    intro i o' hi
    rw [hlike.countProperties hk1]
    exact h1.slotted hf.kin hk1 ho hn hs i o' hi
  have hforest : IsForest nothing (db.usersRenamed old new hb).kin := hk1
  have hmoved := relinkedTo_objects (old_ne_new ho hn) hb
  obtain ⟨db', hdb', hrest, hobj⟩ := fixOwners_owned hforest hslotted old new
  refine ⟨db', ?_, ⟨fun i => ?_, hrest.numObjects, hrest.nextUid, hrest.wpds⟩, ?_⟩
  · rw [renumberObject_eq hf.kin hf.place ho hfree hb]
    exact bind_ok.mpr ⟨db', hdb', rfl⟩
  · have hmap : owned old new ∘ relinked old new = Object.renamed old new :=
      funext (owned_relinked old new)
    rw [hobj i, show (db.usersRenamed old new hb).objects i = _ from hmoved i, ← hmap,
      ← Option.map_map, ← Option.map_map]
    split
    · rfl
    · split <;> rfl
  · have huser : (db.relinkedTo old new hb).isUser new = db.isUser old := by
      rw [isUser_eq, isUser_eq, hmoved new, if_pos rfl, ho]
      rfl
    rw [hrest.users, usersRenamed, huser]
    exact fixedUsers_iff (old_ne_new ho hn) db.allUsers (db.isUser old)

theorem Sound.slotted {db : Db} (h : db.Sound) : db.Slotted := by
  intro i o ho
  rw [h.order.countProperties h.kin, uids_length ho]

theorem renumberObject_renames_family : ∃ db', family.renumberObject 4 = .ok (1, db') ∧
    family.Renamed db' 4 1 ∧ db'.allUsers = [1, 5] ∧
    (db'.objects 5).map (fun o => (o.kin.up, o.place.up)) = some (1, 1) ∧
    (db'.objects 3).map (fun o => (o.owner, o.place.up)) = some (nothing, 1) ∧
    (db'.objects 2).map (fun o => (o.owner, o.kin.first, o.propval.map (·.owner)))
      = some (1, 1, [1, nothing]) := by
  have hok : (family.renumberObject 4).map (fun r =>
      ((r.2.objects 5).map fun o => (o.kin.up, o.place.up),
        (r.2.objects 3).map fun o => (o.owner, o.place.up),
        (r.2.objects 2).map fun o => (o.owner, o.kin.first, o.propval.map (·.owner))))
      = .ok (some (1, 1), some (nothing, 1), some (1, 1, [1, nothing])) := rfl
  obtain ⟨db', hr, hrenamed, husers⟩ := renumberObject_renames family_sound.forested
    family_sound.slotted (show family.valid 4 = true from rfl)
    (show family.freeBelow 4 = some 1 from rfl)
  rw [hr] at hok
  obtain ⟨h5, hrest⟩ := Prod.mk.inj (Except.ok.inj hok)
  obtain ⟨h3, h2⟩ := Prod.mk.inj hrest
  exact ⟨db', hr, hrenamed, husers.mpr fun _ => ⟨rfl, rfl⟩, h5, h3, h2⟩

/-- Where an object is listed that is no user, the list keeps the number that is free afterwards;
and where an object has too few slots, its owners are not gone through to the end. -/
theorem renumberObject_listed :
    (∃ db db' : Db, db.Forested ∧ db.Slotted ∧ db.valid 3 = true ∧ db.freeBelow 3 = some 1 ∧
      db.renumberObject 3 = .ok (1, db') ∧ db'.allUsers ≠ db.allUsers.map (redirect 3 1)) ∧
    ∃ db : Db, db.Forested ∧ db.valid 4 = true ∧ db.freeBelow 4 = some 1 ∧
      ∀ r, db.renumberObject 4 ≠ .ok r := by
  refine ⟨⟨{ family with allUsers := [3] }, ?_⟩,
    family.modify 2 (fun o => { o with propval := [] }), ?_, rfl, rfl, ?_⟩
  · have hok : (Db.renumberObject { family with allUsers := [3] } 3).map (fun r =>
        (r.1, r.2.allUsers)) = .ok (1, [3]) := rfl
    obtain ⟨⟨new, db'⟩, hr, hdb⟩ := map_ok hok
    obtain ⟨rfl, husers⟩ := Prod.mk.inj hdb
    have hslotted : Db.Slotted { family with allUsers := [3] } := family_sound.slotted
    refine ⟨db', ⟨family_kin, family_place⟩, hslotted, rfl, rfl, hr, ?_⟩
    rw [husers]
    decide
  · have hlike := modify_like family 2 (f := fun o => { o with propval := [] }) fun _ => rfl
    exact ⟨hlike.kin_eq ▸ family_kin, hlike.place_eq ▸ family_place⟩
  · intro r hr
    have herr : (family.modify 2 fun o => { o with propval := [] }).renumberObject 4
        = .error (.undefined "propval out of bounds") := rfl
    rw [herr] at hr
    cases hr

end Db
end LambdaMoo.Database
