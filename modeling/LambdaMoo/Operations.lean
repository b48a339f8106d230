import LambdaMoo.Hierarchies
import LambdaMoo.Waif

/-!
# Runs of database operations

The operations in any order, with each stage of a built-in function as a step
of its own, so that verbs may do anything in between.
-/

set_option autoImplicit false

namespace LambdaMoo.Database
namespace Db

open Forest

/-- One operation. The last one stands for all that changes no hierarchy, no verb, no definition and
no list of waif properties, and neither sets nor clears a slot. -/
inductive Step : Db → Db → Prop
  | createObject (db : Db) : Step db db.createObject
  | create {db : Db} {callVerb : CallVerb} {parent owner progr : ℤ} {r : Stage × Db} :
      db.create callVerb parent owner progr = .ok r → Step db r.2
  | chparent {db : Db} {what parent progr : ℤ} {r : Stage × Db} :
      db.chparent what parent progr = .ok r → Step db r.2
  | move {db : Db} {callVerb : CallVerb} {next : ℕ} {what dest : ℤ} {accepts : Bool} {progr : ℤ}
      {r : Stage × Db} : next ∈ [1, 2, 3, 4] →
      doMove callVerb db next what dest accepts progr = .ok r → Step db r.2
  | recycle {db : Db} {callVerb : CallVerb} {pc : ℕ} {oid progr : ℤ} {r : Stage × Db} :
      pc ∈ [1, 2] → db.recycle callVerb pc oid progr = .ok r → Step db r.2
  | renumber {db : Db} {oid progr : ℤ} {r : Stage × Db} :
      db.renumber oid progr = .ok r → Step db r.2
  | resetLastUsedObjid {db db' : Db} : db.resetLastUsedObjid = .ok db' → Step db db'
  | addPropdef {db : Db} {oid : ℤ} {pname : Name} {value : Var} {owner : ℤ} {flags : PropPerms}
      {r : Bool × Db} : db.valid oid = true → value.type ≠ .clear →
      db.addPropdef oid pname value owner flags = .ok r → Step db r.2
  | deletePropdef {db : Db} {oid : ℤ} {pname : CStr} {r : Bool × Db} : db.valid oid = true →
      db.deletePropdef oid pname = .ok r → Step db r.2
  | renamePropdef {db : Db} {oid : ℤ} {old : CStr} {new : Name} {r : Bool × Db} :
      db.valid oid = true → db.renamePropdef oid old new = .ok r → Step db r.2
  | clearProp {db : Db} {oid : ℤ} {pname : CStr} {progr : ℤ} {r : Stage × Db} :
      db.clearProp oid pname progr = .ok r → Step db r.2
  | setValue {db db' : Db} {oid definer : ℤ} {pname : CStr} {n : ℕ} {value : Var} :
      db.valid oid = true → db.findProperty oid pname = .ok (some (.slot definer n)) →
      value.type ≠ .clear → db.setSlot oid n value = .ok db' → Step db db'
  | classPropdefs {db : Db} {oid : ℤ} {o : Object} {r : ℕ × Db} : db.find oid = some o →
      classPropdefs db oid o = .ok r → Step db r.2
  | findCallableVerb {db : Db} {oid : ℤ} {verb : CStr} {r : Option (ℤ × ℕ) × Db} :
      db.findCallableVerb oid verb = .ok r → Step db r.2
  | addVerb {db : Db} {oid : ℤ} (verb : Verbdef) : db.valid oid = true → Step db (db.addVerb oid verb)
  | deleteVerb {db db' : Db} {definer : ℤ} {verbdef : ℕ} :
      db.deleteVerb definer verbdef = .ok db' → Step db db'
  | setVerbNames {db : Db} (definer : ℤ) (verbdef : ℕ) (names : CStr) :
      Step db (db.setVerbNames definer verbdef names)
  | setVerbOwner {db : Db} (definer : ℤ) (verbdef : ℕ) (owner : ℤ) :
      Step db (db.setVerbOwner definer verbdef owner)
  | setVerbFlags {db : Db} (definer : ℤ) (verbdef : ℕ) (flags : VerbPerms) :
      Step db (db.setVerbFlags definer verbdef flags)
  | setVerbProgram {db : Db} (definer : ℤ) (verbdef : ℕ) (program : Option ℕ) :
      Step db (db.setVerbProgram definer verbdef program)
  | setVerbArgSpecs {db : Db} (definer : ℤ) (verbdef dobj : ℕ) (prep : ℤ) (iobj : ℕ) :
      Step db (db.setVerbArgSpecs definer verbdef dobj prep iobj)
  | other {db db' : Db} : db.Like db' → db'.nextUid = db.nextUid →
      db'.wpds = db.wpds ∧ db'.nextWpd = db.nextWpd → db'.vcTable = db.vcTable →
      (∀ i, (db'.objects i).map Object.verbs = (db.objects i).map Object.verbs) →
      (∀ i, (db'.objects i).map (fun o => (o.propval.map Pval.mark, o.waifPropdefs)) =
        (db.objects i).map fun o => (o.propval.map Pval.mark, o.waifPropdefs)) → Step db db'

theorem valid_some {db : Db} {oid : ℤ} (h : db.valid oid = true) :
    ∃ o, db.objects oid = some o := by
  rw [valid, find_eq] at h
  exact Option.isSome_iff_exists.mp h

theorem classPropdefs_rewired {db : Db} {oid : ℤ} {o : Object} {r : ℕ × Db}
    (h : classPropdefs db oid o = .ok r) : db.Rewired r.2 := by
  rw [classPropdefs] at h
  split at h
  · obtain rfl := Except.ok.inj h
    exact .refl db
  · obtain ⟨db', hg, hr⟩ := bind_ok.mp h
    obtain rfl := pure_ok.mp hr
    obtain ⟨chain, -, hg⟩ := bind_ok.mp hg
    obtain rfl := pure_ok.mp hg
    refine ⟨rfl, rfl, rfl, fun i => ?_⟩
    exact db.modify_field Object.unwired (fun o => { o with waifPropdefs := some db.nextWpd })
      (fun _ => rfl) oid i

/-- A lookup changes the cache and nothing else. -/
theorem findCallableVerb_reverbed {db : Db} {oid : ℤ} {verb : CStr} {r : Option (ℤ × ℕ) × Db}
    (h : db.findCallableVerb oid verb = .ok r) : db.Reverbed r.2 := by
  rw [findCallableVerb] at h
  obtain ⟨chain, -, h⟩ := bind_ok.mp h
  dsimp only at h
  split at h
  · obtain rfl := pure_ok.mp h
    exact ⟨rfl, rfl, ⟨rfl, rfl⟩, fun _ => rfl⟩
  · obtain rfl := pure_ok.mp h
    exact ⟨rfl, rfl, ⟨rfl, rfl⟩, fun _ => rfl⟩

theorem Step.kept {db db' : Db} (hs : Step db db') (h : db.Forested) : db.Kept db' := by
  cases hs with
  | createObject => exact createObject_kept h
  | create hr => exact (create_safe h _ _ _ _).result hr
  | chparent hr => exact (chparent_safe h _ _ _).result hr
  | move hnext hr =>
    obtain ⟨r, hr', hm⟩ := doMove_moved _ h.place hnext _ _ _ _
    rw [hr] at hr'
    obtain rfl := Except.ok.inj hr'
    exact hm.kept h.kin
  | recycle hpc hr => exact (recycle_safe h _ hpc _ _).result hr
  | renumber hr => exact (renumber_safe h _ _).result hr
  | resetLastUsedObjid hr =>
    rw [Db.resetLastUsedObjid] at hr
    split at hr
    · cases hr
    · obtain rfl := Except.ok.inj hr
      exact Framed.kept ⟨rfl, fun _ => rfl⟩ h
  | addPropdef _ _ hr => exact ((addPropdef_safe h.kin (.refl db) _ _ _ _ _).result hr).kept h
  | deletePropdef _ hr => exact ((deletePropdef_safe h.kin (.refl db) _ _).result hr).kept h
  | renamePropdef hv hr =>
    obtain ⟨o, ho⟩ := valid_some hv
    exact (renamePropdef_framed (.refl db) ho hr).kept h
  | clearProp hr => exact ((clearProp_safe h.kin (.refl db) _ _ _).result hr).kept h
  | setValue _ _ _ hr => exact ((setSlot_safe (.refl db) _ _ _).result hr).kept h
  | classPropdefs _ hr =>
    have hw := classPropdefs_rewired hr
    exact Framed.kept ⟨hw.table, hw.field Object.frame fun _ => rfl⟩ h
  | findCallableVerb hr =>
    refine ⟨(findCallableVerb_reverbed hr).forested h, fun hc => ?_⟩
    obtain ⟨r, table, -, hr', hc'⟩ := findCallableVerb_eq h.kin hc _ _
    rw [hr] at hr'
    rw [Except.ok.inj hr']
    exact hc'
  | @addVerb oid verb _ =>
    exact Flushed.kept (affectedCallableVerbLookup_flushed db)
      ((Reverbed.flush db oid (·++[verb])).forested h)
  | deleteVerb hr =>
    obtain ⟨hv, hflushed⟩ := deleteVerb_reverbed hr
    exact hflushed.kept (hv.forested h)
  | setVerbNames definer =>
    exact Flushed.kept (affectedCallableVerbLookup_flushed db)
      ((Reverbed.flush db definer _).forested h)
  | setVerbOwner definer verbdef owner =>
    exact (setVerb_framed db definer verbdef (f := fun v => { v with owner := owner }) fun _ => rfl).kept h
  | setVerbFlags definer =>
    exact Flushed.kept (affectedCallableVerbLookup_flushed db)
      ((Reverbed.flush db definer _).forested h)
  | setVerbProgram definer verbdef program =>
    exact (setVerb_framed db definer verbdef (f := fun v => { v with program := program })
      fun _ => rfl).kept h
  | setVerbArgSpecs definer =>
    exact Flushed.kept (affectedCallableVerbLookup_flushed db)
      ((Reverbed.flush db definer _).forested h)
  | other hl _ _ ht hv => exact Framed.kept (hl.framed ht hv) h

theorem Step.sound {db db' : Db} (hs : Step db db') (h : db.Sound) : db'.Sound := by
  have done : ∀ {α : Type} {x : Result (α × Db)} {r : α × Db}, (∃ r, x = .ok r ∧ db.Tends r.2) →
      x = .ok r → r.2.Sound := by
    rintro α x r ⟨r', hr', ht⟩ hr
    rw [hr] at hr'
    rw [Except.ok.inj hr']
    exact ht.sound
  cases hs with
  | createObject => exact createObject_sound h
  | create hr => exact done (create_tends _ h _ _ _) hr
  | chparent hr => exact done (chparent_tends h _ _ _) hr
  | move hnext hr =>
    obtain ⟨r, hr', hm⟩ := doMove_moved _ h.place hnext _ _ _ _
    exact done ⟨r, hr', hm.tends h⟩ hr
  | recycle hpc hr =>
    obtain ⟨r, hr', ht, -⟩ := recycle_tends _ h hpc _ _
    exact done ⟨r, hr', ht⟩ hr
  | renumber hr => exact done (renumber_tends h _ _) hr
  | resetLastUsedObjid hr => exact (resetLastUsedObjid_tends h hr).sound
  | addPropdef hv hval hr =>
    obtain ⟨o, ho⟩ := valid_some hv
    exact done (addPropdef_tends h ho _ hval _ _) hr
  | deletePropdef hv hr =>
    obtain ⟨o, ho⟩ := valid_some hv
    exact done (deletePropdef_tends h ho _) hr
  | renamePropdef hv hr =>
    obtain ⟨o, ho⟩ := valid_some hv
    exact renamePropdef_sound h ho hr
  | clearProp hr => exact done (clearProp_tends h _ _ _) hr
  | setValue hv hf hval hr =>
    obtain ⟨o, ho⟩ := valid_some hv
    obtain ⟨db', hr', ht, -⟩ := setSlot_tends h ho (findProperty_slot h hf).1 _ (.inl hval)
    rw [hr] at hr'
    rw [Except.ok.inj hr']
    exact ht.sound
  | classPropdefs _ hr => exact (classPropdefs_rewired hr).sound h
  | findCallableVerb hr => exact (findCallableVerb_reverbed hr).sound h
  | @addVerb oid verb _ => exact (Reverbed.flush db oid (·++[verb])).sound h
  | deleteVerb hr => exact (deleteVerb_reverbed hr).1.sound h
  | setVerbNames definer => exact (Reverbed.flush db definer _).sound h
  | setVerbOwner definer => exact (Reverbed.modify db definer _).sound h
  | setVerbFlags definer => exact (Reverbed.flush db definer _).sound h
  | setVerbProgram definer => exact (Reverbed.modify db definer _).sound h
  | setVerbArgSpecs definer => exact (Reverbed.flush db definer _).sound h
  | other hl hu _ _ _ hm =>
    refine h.face (fun i => ?_) (hl.kin_eq ▸ h.kin) (hl.place_eq ▸ h.place) (le_of_eq hu.symm)
    have hm := hm i
    cases ho : db.objects i with
    | none => rw [hl.none ho]
    | some o =>
      obtain ⟨o', ho', hk, -, hp⟩ := hl.some ho
      rw [ho, ho', Option.map_some, Option.map_some, Option.some.injEq, Prod.mk.injEq] at hm
      rw [ho', Option.map_some, Option.map_some, Object.face, Object.face, Object.defs,
        Object.defs, hk, hp, hm.1]

/-- Any number of operations in any order. -/
abbrev Run : Db → Db → Prop := Relation.ReflTransGen Step

theorem Run.kept {db db' : Db} (hr : Run db db') (h : db.Forested) : db.Kept db' := by
  induction hr with
  | refl => exact .refl h
  | tail _ hs ih => exact ih.trans (hs.kept ih.forested)

theorem Run.sound {db db' : Db} (hr : Run db db') (h : db.Sound) : db'.Sound := by
  induction hr with
  | refl => exact h
  | tail _ hs ih => exact hs.sound ih

theorem acyclic_above {heap : Heap ℤ} (hf : IsForest nothing heap) (i : ℤ) :
    ¬Relation.TransGen (Above nothing heap) i i := by
  intro hi
  obtain ⟨j, hij, hji⟩ := Relation.TransGen.head'_iff.mp hi
  exact hf.irrefl hij hji

section Lists
variable {db : Db} (h : db.Forested)
include h

theorem children_list {i : ℤ} {o : Object} (ho : db.objects i = some o) :
    ∃ xs, db.children i = .ok xs ∧ xs.Nodup ∧
      ∀ c, c ∈ xs ↔ ∃ oc, db.objects c = some oc ∧ oc.kin.up = i := by
  obtain ⟨xs, hxs, hn, hmem⟩ := children_eq h.kin (i := i) (by simp [ho])
  refine ⟨xs, hxs, hn, fun c => ?_⟩
  rw [hmem, above_iff]
  constructor
  · rintro ⟨oc, hoc, hu, -⟩
    exact ⟨oc, hoc, hu⟩
  · rintro ⟨oc, hoc, hu⟩
    refine ⟨oc, hoc, hu, ?_⟩
    rintro rfl
    rw [nothing_free] at ho
    cases ho

theorem contents_list {i : ℤ} {o : Object} (ho : db.objects i = some o) :
    ∃ xs, db.contents i = .ok xs ∧ xs.Nodup ∧
      ∀ c, c ∈ xs ↔ ∃ oc, db.objects c = some oc ∧ oc.place.up = i := by
  obtain ⟨xs, hxs, hn, hmem, -⟩ := contents_eq h.place (i := i) (by simp [ho])
  refine ⟨xs, hxs, hn, fun c => ?_⟩
  rw [hmem]
  constructor
  · rintro ⟨l, hl, hu, -⟩
    obtain ⟨oc, hoc, rfl⟩ := Option.map_eq_some_iff.mp hl
    exact ⟨oc, hoc, hu⟩
  · rintro ⟨oc, hoc, hu⟩
    refine ⟨oc.place, place_some hoc, hu, ?_⟩
    rintro rfl
    rw [nothing_free] at ho
    cases ho

end Lists

/-- After any run of operations the two hierarchies are without cycles, the list of children of an
object holds once each the objects whose parent it is, the list of contents those whose location
it is, and no operation on a hierarchy panics. -/
theorem hierarchies_of_run {db db' : Db} (h : db.Forested) (hrun : Run db db') :
    (∀ i, ¬Relation.TransGen (Above nothing db'.kin) i i) ∧
    (∀ i, ¬Relation.TransGen (Above nothing db'.place) i i) ∧
    (∀ i o, db'.objects i = some o →
      (o.kin.up = nothing ∨ db'.valid o.kin.up = true) ∧
      (o.place.up = nothing ∨ db'.valid o.place.up = true) ∧
      (∃ xs, db'.children i = .ok xs ∧ xs.Nodup ∧
        ∀ c, c ∈ xs ↔ ∃ oc, db'.objects c = some oc ∧ oc.kin.up = i) ∧
      ∃ xs, db'.contents i = .ok xs ∧ xs.Nodup ∧
        ∀ c, c ∈ xs ↔ ∃ oc, db'.objects c = some oc ∧ oc.place.up = i) ∧
    ∀ (msg : String) (callVerb : CallVerb) (oid dest progr : ℤ),
      (∀ owner, db'.create callVerb oid owner progr ≠ .error (.panic msg)) ∧
      db'.chparent oid dest progr ≠ .error (.panic msg) ∧
      (∀ next ∈ [1, 2, 3, 4], ∀ accepts,
        doMove callVerb db' next oid dest accepts progr ≠ .error (.panic msg)) ∧
      db'.renumber oid progr ≠ .error (.panic msg) ∧
      ∀ pc ∈ [1, 2], db'.recycle callVerb pc oid progr ≠ .error (.panic msg) := by
  have hf := (hrun.kept h).forested
  refine ⟨acyclic_above hf.kin, acyclic_above hf.place, fun i o ho => ⟨?_, ?_, ?_, ?_⟩,
    fun msg callVerb oid dest progr => ⟨fun owner => ?_, ?_, fun next hnext accepts => ?_, ?_,
      fun pc hpc => ?_⟩⟩
  · rw [valid, find_eq, ← kin_isSome]
    exact hf.kin.up i o.kin (kin_some ho)
  · rw [valid, find_eq, ← place_isSome]
    exact hf.place.up i o.place (place_some ho)
  · exact children_list hf ho
  · exact contents_list hf ho
  · exact (create_safe hf callVerb oid owner progr).no_panic msg
  · exact (chparent_safe hf oid dest progr).no_panic msg
  · obtain ⟨r, hr, -⟩ := doMove_moved callVerb hf.place hnext oid dest accepts progr
    rw [hr]
    intro he
    cases he
  · exact (renumber_safe hf oid progr).no_panic msg
  · exact (recycle_safe hf callVerb hpc oid progr).no_panic msg

/-- A database without objects. -/
def empty : Db where
  objects _ := none
  numObjects := 0
  allUsers := []
  nextUid := 0
  wpds _ := []
  nextWpd := 0
  vcTable := none
  bounded _ h := by simp at h

theorem empty_forest {heap : Heap ℤ} (h : ∀ i, heap i = none) : IsForest nothing heap := by
  refine ⟨⟨h nothing, fun i l hi => ?_⟩, fun i l hi => ?_, fun i l hi => ?_, ⟨fun _ => 0, ?_⟩⟩
  · simp [h] at hi
  · simp [h] at hi
  · simp [h] at hi
  · rintro i j ⟨l, hl, -⟩
    simp [h] at hl

theorem empty_sound : empty.Sound := by
  refine ⟨empty_forest fun _ => rfl, empty_forest fun _ => rfl, ⟨?_, ?_, ?_, ?_⟩, ?_, ?_⟩
  · intro i j o o' ho
    cases ho
  · intro i o ho
    cases ho
  · intro i o ho
    cases ho
  · intro i j o o' ho
    cases ho
  · intro i o ho
    cases ho
  · intro i o ho
    cases ho

/-- A property of the family, by its name and its number. -/
def colorDef : Propdef := ⟨⟨0, ⟨ascii "color", by decide⟩⟩, 0⟩
def sizeDef : Propdef := ⟨⟨1, ⟨ascii "size", by decide⟩⟩, 1⟩
def weightDef : Propdef := ⟨⟨2, ⟨ascii "weight", by decide⟩⟩, 2⟩
def shapeDef : Propdef := ⟨⟨3, ⟨ascii "shape", by decide⟩⟩, 3⟩

def readable : PropPerms := ⟨true, false, false⟩
def chowned : PropPerms := ⟨true, false, true⟩

/-- A wizard, the parent of 2 and 3, with 4 in it. -/
def rootObject : Object where
  name := ⟨ascii "root", by decide⟩
  owner := 0
  flags := ⟨false, true, true, true, false, true⟩
  kin := ⟨nothing, 2, nothing⟩
  place := ⟨nothing, 4, nothing⟩
  verbdefs := []
  propdefs := [colorDef]
  propval := [⟨.int 10, 0, readable, 0⟩]
  waifPropdefs := none

/-- The parent of 4. -/
def sizedObject : Object where
  name := ⟨ascii "sized", by decide⟩
  owner := 4
  flags := noFlags
  kin := ⟨0, 4, 3⟩
  place := orphan
  verbdefs := []
  propdefs := [sizeDef]
  propval := [⟨.int 20, 4, readable, 1⟩, ⟨.clear, 1, readable, 0⟩]
  waifPropdefs := none

/-- A child of 0 in 4, of an owner that is no more. -/
def weighedObject : Object where
  name := ⟨ascii "weighed", by decide⟩
  owner := 1
  flags := noFlags
  kin := ⟨0, nothing, nothing⟩
  place := ⟨4, nothing, 5⟩
  verbdefs := []
  propdefs := [weightDef]
  propval := [⟨.int 30, 3, chowned, 2⟩, ⟨.int 31, 4, readable, 0⟩]
  waifPropdefs := none

/-- A user with a verb, the child of 2 and the parent of 5, in 0 and with 3 and 5 in it. -/
def shapedObject : Object where
  name := ⟨ascii "shaped", by decide⟩
  owner := 4
  flags := ⟨true, false, false, true, false, false⟩
  kin := ⟨2, 5, nothing⟩
  place := ⟨0, 3, nothing⟩
  verbdefs := [⟨1, ⟨ascii "l*ook", by decide⟩, 4, ⟨true, false, true, true⟩, 0, 0, 0, none⟩]
  propdefs := [shapeDef]
  propval := [⟨.int 40, 4, readable, 3⟩, ⟨.int 41, 0, readable, 1⟩, ⟨.clear, 4, readable, 0⟩]
  waifPropdefs := none

/-- A user, the child of 4 and in it. -/
def youngObject : Object where
  name := ⟨ascii "young", by decide⟩
  owner := 5
  flags := ⟨true, false, false, true, false, false⟩
  kin := ⟨4, nothing, nothing⟩
  place := ⟨4, nothing, nothing⟩
  verbdefs := []
  propdefs := []
  propval := [⟨.clear, 5, readable, 3⟩, ⟨.int 51, 5, readable, 1⟩, ⟨.clear, 1, readable, 0⟩]
  waifPropdefs := none

def familyObjects (i : ℤ) : Option Object :=
  if i = 0 then some rootObject
  else if i = 2 then some sizedObject
  else if i = 3 then some weighedObject
  else if i = 4 then some shapedObject
  else if i = 5 then some youngObject
  else none

theorem familyObjects_some {i : ℤ} {o : Object} (h : familyObjects i = some o) :
    (i = 0 ∧ o = rootObject) ∨ (i = 2 ∧ o = sizedObject) ∨ (i = 3 ∧ o = weighedObject) ∨
      (i = 4 ∧ o = shapedObject) ∨ (i = 5 ∧ o = youngObject) := by
  unfold familyObjects at h
  split_ifs at h with h0 h2 h3 h4 h5
  · exact .inl ⟨h0, (Option.some.inj h).symm⟩
  · exact .inr (.inl ⟨h2, (Option.some.inj h).symm⟩)
  · exact .inr (.inr (.inl ⟨h3, (Option.some.inj h).symm⟩))
  · exact .inr (.inr (.inr (.inl ⟨h4, (Option.some.inj h).symm⟩)))
  · exact .inr (.inr (.inr (.inr ⟨h5, (Option.some.inj h).symm⟩)))

theorem familyObjects_bounded (i : ℤ) (hi : (familyObjects i).isSome = true) :
    0 ≤ i ∧ i < (6 : ℕ) := by
  obtain ⟨o, ho⟩ := Option.isSome_iff_exists.mp hi
  rcases familyObjects_some ho with ⟨rfl, -⟩|⟨rfl, -⟩|⟨rfl, -⟩|⟨rfl, -⟩|⟨rfl, -⟩ <;> decide

/-- Five objects in two hierarchies, with properties that come down both branches of the first; the
number 1 is free. -/
def family : Db where
  objects := familyObjects
  numObjects := 6
  allUsers := [4, 5]
  nextUid := 4
  wpds _ := []
  nextWpd := 0
  vcTable := none
  bounded := familyObjects_bounded

theorem family_nodes {i : ℤ} (hi : (family.objects i).isSome = true) : i ∈ [0, 2, 3, 4, 5] := by
  obtain ⟨o, ho⟩ := Option.isSome_iff_exists.mp hi
  rcases familyObjects_some ho with ⟨rfl, -⟩|⟨rfl, -⟩|⟨rfl, -⟩|⟨rfl, -⟩|⟨rfl, -⟩ <;> simp

theorem family_kin : IsForest nothing family.kin := by
  refine .ofNodes [0, 2, 3, 4, 5] (fun i hi => family_nodes (by rwa [kin_isSome] at hi))
    (fun i => if i = 0 then [2, 3] else if i = 2 then [4] else if i = 4 then [5] else [])
    (fun i => i.toNat) rfl ?_ ?_
  · intro i hi l hl
    obtain rfl|rfl|rfl|rfl|rfl : i = 0 ∨ i = 2 ∨ i = 3 ∨ i = 4 ∨ i = 5 := by simpa using hi
    all_goals obtain rfl := Option.some.inj hl
    · exact ⟨.cons rfl (by decide) (.cons rfl (by decide) .nil), by decide, by decide, by decide⟩
    · exact ⟨.cons rfl (by decide) .nil, by decide, by decide, by decide⟩
    · exact ⟨.nil, by decide, by decide, by decide⟩
    · exact ⟨.cons rfl (by decide) .nil, by decide, by decide, by decide⟩
    · exact ⟨.nil, by decide, by decide, by decide⟩
  · intro i hi l hl
    obtain rfl|rfl|rfl|rfl|rfl : i = 0 ∨ i = 2 ∨ i = 3 ∨ i = 4 ∨ i = 5 := by simpa using hi
    all_goals
      obtain rfl := Option.some.inj hl
      decide

theorem family_place : IsForest nothing family.place := by
  refine .ofNodes [0, 2, 3, 4, 5] (fun i hi => family_nodes (by rwa [place_isSome] at hi))
    (fun i => if i = 0 then [4] else if i = 4 then [3, 5] else [])
    (fun i => if i = 0 then 0 else if i = 4 then 1 else 2) rfl ?_ ?_
  · intro i hi l hl
    obtain rfl|rfl|rfl|rfl|rfl : i = 0 ∨ i = 2 ∨ i = 3 ∨ i = 4 ∨ i = 5 := by simpa using hi
    all_goals obtain rfl := Option.some.inj hl
    · exact ⟨.cons rfl (by decide) .nil, by decide, by decide, by decide⟩
    · exact ⟨.nil, by decide, by decide, by decide⟩
    · exact ⟨.nil, by decide, by decide, by decide⟩
    · exact ⟨.cons rfl (by decide) (.cons rfl (by decide) .nil), by decide, by decide, by decide⟩
    · exact ⟨.nil, by decide, by decide, by decide⟩
  · intro i hi l hl
    obtain rfl|rfl|rfl|rfl|rfl : i = 0 ∨ i = 2 ∨ i = 3 ∨ i = 4 ∨ i = 5 := by simpa using hi
    all_goals
      obtain rfl := Option.some.inj hl
      decide

/-- The properties of the family have one definition each. -/
theorem family_defs {i : ℤ} {o : Object} (ho : family.objects i = some o) {p : Propdef}
    (hp : p ∈ o.propdefs) : (i = 0 ∧ p = colorDef) ∨ (i = 2 ∧ p = sizeDef) ∨
      (i = 3 ∧ p = weightDef) ∨ (i = 4 ∧ p = shapeDef) := by
  rcases familyObjects_some ho with ⟨rfl, rfl⟩|⟨rfl, rfl⟩|⟨rfl, rfl⟩|⟨rfl, rfl⟩|⟨rfl, rfl⟩
  · exact .inl ⟨rfl, List.mem_singleton.mp hp⟩
  · exact .inr (.inl ⟨rfl, List.mem_singleton.mp hp⟩)
  · exact .inr (.inr (.inl ⟨rfl, List.mem_singleton.mp hp⟩))
  · exact .inr (.inr (.inr ⟨rfl, List.mem_singleton.mp hp⟩))
  · cases hp

theorem family_sound : family.Sound := by
  have hdefs := @family_defs
  refine ⟨family_kin, family_place, ⟨?_, ?_, ?_, ?_⟩, ?_, ?_⟩
  · intro i j o o' ho ho' _ p hp q hq he
    rcases hdefs ho hp with ⟨rfl, rfl⟩|⟨rfl, rfl⟩|⟨rfl, rfl⟩|⟨rfl, rfl⟩ <;>
      rcases hdefs ho' hq with ⟨rfl, rfl⟩|⟨rfl, rfl⟩|⟨rfl, rfl⟩|⟨rfl, rfl⟩ <;>
      first | exact ⟨rfl, rfl⟩ | exact absurd he (by decide)
  · intro i o ho p hp
    rcases hdefs ho hp with ⟨-, rfl⟩|⟨-, rfl⟩|⟨-, rfl⟩|⟨-, rfl⟩ <;> decide
  · intro i o ho
    rcases familyObjects_some ho with ⟨-, rfl⟩|⟨-, rfl⟩|⟨-, rfl⟩|⟨-, rfl⟩|⟨-, rfl⟩ <;> decide
  · intro i j o o' ho ho' p hp q hq he
    rcases hdefs ho hp with ⟨rfl, rfl⟩|⟨rfl, rfl⟩|⟨rfl, rfl⟩|⟨rfl, rfl⟩ <;>
      rcases hdefs ho' hq with ⟨rfl, rfl⟩|⟨rfl, rfl⟩|⟨rfl, rfl⟩|⟨rfl, rfl⟩ <;>
      first | rfl | exact absurd he (by decide)
  · intro i o ho
    rcases familyObjects_some ho with ⟨rfl, rfl⟩|⟨rfl, rfl⟩|⟨rfl, rfl⟩|⟨rfl, rfl⟩|⟨rfl, rfl⟩ <;> rfl
  · intro i o ho pv hpv
    rcases familyObjects_some ho with ⟨-, rfl⟩|⟨-, rfl⟩|⟨-, rfl⟩|⟨-, rfl⟩|⟨-, rfl⟩
    · obtain rfl := List.mem_singleton.mp hpv
      decide
    · obtain rfl := List.mem_singleton.mp hpv
      decide
    · obtain rfl := List.mem_singleton.mp hpv
      decide
    · obtain rfl := List.mem_singleton.mp hpv
      decide
    · cases hpv

/-- No verb is there to be called. -/
def verbless : CallVerb := fun _ _ => .verbnf

/-- 4 becomes a child of 3, 3 goes to 2, and 4 is renumbered and recycled. -/
def reorganized : Result (List Stage × Db) := do
  let r1 ← family.chparent 4 3 0
  let r2 ← doMove verbless r1.2 1 3 2 false 0
  let r3 ← r2.2.renumber 4 0
  let r4 ← r3.2.recycle verbless 1 1 0
  return ([r1.1, r2.1, r3.1, r4.1], r4.2)

theorem reorganized_run {r : List Stage × Db} (h : reorganized = .ok r) : Run family r.2 := by
  obtain ⟨r1, h1, h⟩ := bind_ok.mp h
  obtain ⟨r2, h2, h⟩ := bind_ok.mp h
  obtain ⟨r3, h3, h⟩ := bind_ok.mp h
  obtain ⟨r4, h4, h⟩ := bind_ok.mp h
  obtain rfl := pure_ok.mp h
  exact .tail (.tail (.tail (.single (.chparent h1)) (.move (by decide) h2)) (.renumber h3))
    (.recycle (by decide) h4)

theorem hierarchies_of_run_family : ∃ db', reorganized = .ok
      ([.done zero, .done zero, .done (.obj 1), .done zero], db') ∧ Run family db' ∧
    db'.children 3 = .ok [5] ∧ db'.contents 2 = .ok [3] ∧
    (∀ i, ¬Relation.TransGen (Above nothing db'.kin) i i) ∧
    ∃ xs, db'.children 3 = .ok xs ∧ xs.Nodup ∧
      ∀ c, c ∈ xs ↔ ∃ oc, db'.objects c = some oc ∧ oc.kin.up = 3 := by
  have hok : reorganized.map (fun r => (r.1, r.2.children 3, r.2.contents 2,
      (r.2.objects 3).isSome)) = .ok ([.done zero, .done zero, .done (.obj 1), .done zero],
        .ok [5], .ok [3], true) := rfl
  obtain ⟨⟨stages, db'⟩, hr, hstages⟩ := map_ok hok
  obtain ⟨rfl, hrest⟩ := Prod.mk.inj hstages
  obtain ⟨hchildren, hrest⟩ := Prod.mk.inj hrest
  obtain ⟨hcontents, h3⟩ := Prod.mk.inj hrest
  obtain ⟨o, ho⟩ := Option.isSome_iff_exists.mp h3
  have hrun := reorganized_run hr
  obtain ⟨hkin, -, hlists, -⟩ := hierarchies_of_run family_sound.forested hrun
  exact ⟨db', hr, hrun, hchildren, hcontents, hkin, (hlists 3 o ho).2.2.1⟩

/-- The names along a line of ancestors differ, up to case. -/
theorem names_nodup {db : Db} (h : db.Sound) {i : ℤ} {chain : List (ℤ × Object)}
    (hl : db.Lineage i chain) :
    (chain.flatMap fun a => a.2.propdefs.map fun p => p.name.str.fold).Nodup := by
  induction hl with
  | nil => simp
  | @cons i o rest ho hrest ih =>
    rw [List.flatMap_cons, List.nodup_append]
    refine ⟨?_, ih, ?_⟩
    · have honce : o.propdefs.Nodup := .of_map _ (h.named.once i o ho)
      apply honce.map_on
      intro p hp q hq he
      exact (h.named.apart i i o o ho ho .refl p hp q hq he).2
    · intro a ha b hb he
      subst he
      obtain ⟨p, hp, rfl⟩ := List.mem_map.mp ha
      obtain ⟨⟨j, oj⟩, hj, hq⟩ := List.mem_flatMap.mp hb
      obtain ⟨q, hq, he⟩ := List.mem_map.mp hq
      obtain ⟨hoj, hs, hbelow⟩ := (hrest.mem h.kin).mp hj
      have hne : o.kin.up ≠ nothing := by
        intro hn
        rw [hn, nothing_free] at hs
        cases hs
      have ha := above_iff.mpr ⟨o, ho, rfl, hne⟩
      obtain ⟨rfl, -⟩ := h.named.apart i j o oj ho hoj (.head ha hbelow) p hp q hq he.symm
      exact h.kin.irrefl ha hbelow

/-- After any run of operations an object has one slot for each definition on it and its ancestors,
its own first and then those of its parent in the parent's order; no name is defined twice along
its ancestors; and it has a value of its own for every property it defines. -/
theorem slots_of_run {db db' : Db} (h : db.Sound) (hrun : Run db db') {i : ℤ} {o : Object}
    (ho : db'.objects i = some o) :
    ∃ chain, db'.ancestors db'.fuel i = .ok chain ∧
      o.propval.length = (chain.map fun a => a.2.propdefs.length).sum ∧
      o.propval.map (·.uid) = chain.flatMap (fun a => a.2.propdefs.map (·.uid)) ∧
      o.propval.map (·.uid) = o.propdefs.map (·.uid)++
        ((db'.objects o.kin.up).elim [] fun p => p.propval.map (·.uid)) ∧
      (chain.flatMap fun a => a.2.propdefs.map fun p => p.name.str.fold).Nodup ∧
      ∀ pv ∈ o.propval.take o.propdefs.length, pv.var.type ≠ .clear := by
  have hs := hrun.sound h
  obtain ⟨chain, hc, hl⟩ := ancestors_eq hs.kin i
  refine ⟨chain, hc, ?_, ?_, ?_, names_nodup hs hl, hs.own i o ho⟩
  · have hcount := hl.countProperties hs.kin
    rw [hs.order.countProperties hs.kin, Except.ok.injEq, uids_length ho] at hcount
    exact hcount
  · rw [← uids_some ho]
    exact hl.uids (hs.order.mem hl)
  · rw [← uids_some ho, hs.order i o ho]
    cases hp : db'.objects o.kin.up with
    | none => rw [uids_none hp, Option.elim_none]
    | some p => rw [uids_some hp, Option.elim_some]

/-- 0 defines a property more, 2 loses its own, and 4 becomes a child of 3. -/
def reworked : Result Db := do
  let r1 ← family.addPropdef 0 ⟨3, ⟨ascii "taste", by decide⟩⟩ zero 0 readable
  let r2 ← r1.2.deletePropdef 2 ⟨ascii "SIZE", by decide⟩
  let r3 ← r2.2.chparent 4 3 0
  return r3.2

theorem reworked_run {db' : Db} (h : reworked = .ok db') : Run family db' := by
  obtain ⟨r1, h1, h⟩ := bind_ok.mp h
  obtain ⟨r2, h2, h⟩ := bind_ok.mp h
  obtain ⟨r3, h3, h⟩ := bind_ok.mp h
  obtain rfl := pure_ok.mp h
  have hval : zero.type ≠ .clear := by decide
  have h2v : r1.2.valid 2 = true := by
    have hlike := (addPropdef_safe family_kin (.refl _) 0 _ _ _ _).result h1
    rw [valid, find_eq, ← kin_isSome, hlike.kin_eq, kin_isSome]
    rfl
  exact .tail (.tail (.single (.addPropdef rfl hval h1)) (.deletePropdef h2v h2)) (.chparent h3)

/-- The grandchild has slots for `shape`, `weight`, `color` and `taste`. -/
theorem slots_of_run_family : ∃ db' o chain, Run family db' ∧ db'.objects 5 = some o ∧
    o.propval.map (·.uid) = [3, 2, 0, 4] ∧ db'.ancestors db'.fuel 5 = .ok chain ∧
    chain.map Prod.fst = [5, 4, 3, 0] ∧
    o.propval.map (·.uid) = chain.flatMap (fun a => a.2.propdefs.map (·.uid)) := by
  have hok : reworked.map (fun db => ((db.objects 5).map fun o => o.propval.map (·.uid),
      (db.ancestors db.fuel 5).map fun chain => chain.map Prod.fst))
      = .ok (some [3, 2, 0, 4], .ok [5, 4, 3, 0]) := rfl
  obtain ⟨db', hr, hdb⟩ := map_ok hok
  obtain ⟨hslots, hchain⟩ := Prod.mk.inj hdb
  obtain ⟨o, ho, hslots⟩ := Option.map_eq_some_iff.mp hslots
  obtain ⟨chain', hchain', hnumbers⟩ := map_ok hchain
  have hrun := reworked_run hr
  obtain ⟨chain, hc, -, huids, -⟩ := slots_of_run family_sound hrun ho
  obtain rfl := Except.ok.inj (hc.symm.trans hchain')
  exact ⟨db', o, chain, hrun, ho, hslots, hc, hnumbers, huids⟩

/-- Whatever was done since, a stage of `recycle` ends in one of the ways of `Ended`. Where it is done
the object is gone: its contents and it itself were moved out, its children were all passed on to
its parent, and it was without relations when it was destroyed. -/
theorem recycle_completes {db0 db : Db} (h : db0.Sound) (hrun : Run db0 db) (callVerb : CallVerb)
    {pc : ℕ} (hpc : pc ∈ [1, 2]) (oid progr : ℤ) :
    ∃ r, db.recycle callVerb pc oid progr = .ok r ∧ r.2.Sound ∧
      Ended callVerb oid progr db pc r ∧ (r.1 = .done zero → r.2.valid oid = false) := by
  obtain ⟨r, hr, ht, hend⟩ := recycle_tends callVerb (hrun.sound h) hpc oid progr
  refine ⟨r, hr, ht.sound, hend, fun hdone => ?_⟩
  cases hend with
  | begun _ _ _ he => exact he.done hdone
  | resumed he => exact he.done hdone
  | _ => cases hdone

/-- 4 has a child, a parent, a location and two objects in it. -/
theorem recycle_completes_family : ∃ db', family.recycle verbless 1 4 0 = .ok (.done zero, db') ∧
    db'.Sound ∧ Ended verbless 4 0 family 1 (.done zero, db') ∧ db'.valid 4 = false ∧
    (db'.objects 5).map (·.kin.up) = some 2 ∧ (db'.objects 3).map (·.place.up) = some nothing ∧
    db'.contents 0 = .ok [] := by
  have hok : (family.recycle verbless 1 4 0).map (fun r => (r.1, (r.2.objects 5).map (·.kin.up),
      (r.2.objects 3).map (·.place.up), r.2.contents 0))
      = .ok (.done zero, some 2, some nothing, .ok []) := rfl
  obtain ⟨r, hr, hs, hend, hdone⟩ := recycle_completes family_sound .refl verbless
    (show 1 ∈ [1, 2] by decide) 4 0
  rw [hr] at hok
  obtain ⟨hstage, hrest⟩ := Prod.mk.inj (Except.ok.inj hok)
  obtain ⟨h5, hrest⟩ := Prod.mk.inj hrest
  obtain ⟨h3, h0⟩ := Prod.mk.inj hrest
  obtain ⟨stage, db'⟩ := r
  obtain rfl : stage = .done zero := hstage
  exact ⟨db', hr, hs, hend, hdone rfl, h5, h3, h0⟩

/-- After any run of operations from an empty cache, lookups among them, a lookup of a callable verb
through the cache finds what a search through all ancestors does. -/
theorem findCallableVerb_of_run {db db' : Db} (h : db.Forested) (hcache : db.vcTable = none)
    (hrun : Run db db') (oid : ℤ) (verb : CStr) :
    ∃ r db'', db'.searchCallableVerb oid verb = .ok r ∧
      db'.findCallableVerb oid verb = .ok (r, db'') := by
  have hk := hrun.kept h
  have hc : db.CacheOk := by
    intro table ht
    rw [hcache] at ht
    cases ht
  obtain ⟨r, table, hs, hr, -⟩ := findCallableVerb_eq hk.forested.kin (hk.cacheOk hc) oid verb
  exact ⟨r, _, hs, hr⟩

/-- An object with a verb, which is then looked up once and once more. -/
theorem findCallableVerb_of_run_one : ∃ db first r db' again, empty.Forested ∧
    empty.vcTable = none ∧
    db = empty.createObject.addVerb 0
      ⟨1, ⟨ascii "l*ook", by decide⟩, 0, ⟨true, false, true, true⟩, 0, 0, 0, none⟩ ∧
    db.findCallableVerb 0 ⟨ascii "LO", by decide⟩ = .ok (first, db') ∧ Run empty db' ∧
    db'.searchCallableVerb 0 ⟨ascii "lo", by decide⟩ = .ok r ∧
    db'.findCallableVerb 0 ⟨ascii "lo", by decide⟩ = .ok (r, again) := by
  generalize hdb : empty.createObject.addVerb 0
    ⟨1, ⟨ascii "l*ook", by decide⟩, 0, ⟨true, false, true, true⟩, 0, 0, 0, none⟩ = db
  have hrun : Run empty db := by
    rw [← hdb]
    exact .tail (.single (.createObject empty)) (.addVerb _ rfl)
  obtain ⟨first, db', -, hfirst⟩ := findCallableVerb_of_run empty_sound.forested rfl hrun 0
    ⟨ascii "LO", by decide⟩
  have hrun' : Run empty db' := .tail hrun (.findCallableVerb hfirst)
  obtain ⟨r, again, hs, hr⟩ := findCallableVerb_of_run empty_sound.forested rfl hrun' 0
    ⟨ascii "lo", by decide⟩
  exact ⟨db, first, r, db', again, empty_sound.forested, rfl, rfl, hfirst, hrun', hs, hr⟩

end Db
end LambdaMoo.Database
