import LambdaMoo.Objects
import LambdaMoo.WaifLists

/-!
# Creating, moving and destroying objects

None of these touches the properties of an object that has any. A move is
made where the hierarchy of locations stays one.
-/

set_option autoImplicit false

namespace LambdaMoo.Database
namespace Db

open Forest

section Create
variable {db : Db}

theorem createObject_self : db.createObject.objects db.numObjects =
    some ⟨noName, nothing, noFlags, orphan, orphan, [], [], [], none⟩ := by
  simp [createObject]

theorem createObject_ne {i : ℤ} (hi : i ≠ db.numObjects) :
    db.createObject.objects i = db.objects i := by
  simp [createObject, hi]

theorem next_free : db.objects db.numObjects = none := by
  cases h : db.objects db.numObjects with
  | none => rfl
  | some o =>
    have := db.bounded db.numObjects (by simp [h])
    omega

theorem numObjects_ne_nothing : (db.numObjects : ℤ) ≠ nothing := by
  rw [nothing]
  omega

theorem createObject_kin : db.createObject.kin = addNode nothing db.kin db.numObjects := by
  funext i
  by_cases hi : i = db.numObjects
  · subst hi
    simp [kin, createObject_self, addNode, orphan]
  · simp [kin, createObject_ne hi, addNode, hi]

theorem createObject_place : db.createObject.place = addNode nothing db.place db.numObjects := by
  funext i
  by_cases hi : i = db.numObjects
  · subst hi
    simp [place, createObject_self, addNode, orphan]
  · simp [place, createObject_ne hi, addNode, hi]

theorem createObject_uids (i : ℤ) : db.createObject.uids i = db.uids i := by
  by_cases hi : i = db.numObjects
  · subst hi
    rw [uids_some createObject_self, uids_none next_free]
    rfl
  · rw [uids, uids, createObject_ne hi]

theorem createObject_forested (h : db.Forested) : db.createObject.Forested := by
  have hkin : db.kin db.numObjects = none := by simp [kin, next_free]
  have hplace : db.place db.numObjects = none := by simp [place, next_free]
  constructor
  · rw [createObject_kin]
    exact h.kin.addNode hkin numObjects_ne_nothing
  · rw [createObject_place]
    exact h.place.addNode hplace numObjects_ne_nothing

theorem createObject_sound (h : db.Sound) : db.createObject.Sound := by
  have hkin : db.kin db.numObjects = none := by simp [kin, next_free]
  have hf := createObject_forested h.forested
  have hbelow : Below nothing db.createObject.kin = Below nothing db.kin := by
    have : Above nothing db.createObject.kin = Above nothing db.kin := by
      funext i j
      rw [createObject_kin]
      exact propext (addNode_above hkin i j)
    rw [Below, Below, this]
  -- the new object has no definitions and no slots
  have hold : ∀ {i o}, db.createObject.objects i = some o →
      db.objects i = some o ∨ o.propdefs = [] ∧ o.propval = [] ∧ o.kin.up = nothing := by
    intro i o ho
    by_cases hi : i = db.numObjects
    · subst hi
      rw [createObject_self] at ho
      obtain rfl := Option.some.inj ho
      exact .inr ⟨rfl, rfl, rfl⟩
    · rw [createObject_ne hi] at ho
      exact .inl ho
  refine ⟨hf.kin, hf.place, ⟨fun i j o o' ho ho' hb p hp q hq he => ?_, fun i o ho p hp => ?_,
    fun i o ho => ?_, fun i j o o' ho ho' p hp q hq he => ?_⟩, fun i o ho => ?_,
    fun i o ho pv hpv => ?_⟩
  · rcases hold ho with ho|⟨hn, -⟩
    · rcases hold ho' with ho'|⟨hn, -⟩
      · rw [hbelow] at hb
        exact h.named.apart i j o o' ho ho' hb p hp q hq he
      · simp [hn] at hq
    · simp [hn] at hp
  · rcases hold ho with ho|⟨hn, -⟩
    · exact h.named.made i o ho p hp
    · simp [hn] at hp
  · rcases hold ho with ho|⟨hn, -⟩
    · exact h.named.once i o ho
    · simp [hn]
  · rcases hold ho with ho|⟨hn, -⟩
    · rcases hold ho' with ho'|⟨hn, -⟩
      · exact h.named.single i j o o' ho ho' p hp q hq he
      · simp [hn] at hq
    · simp [hn] at hp
  · rw [createObject_uids, createObject_uids]
    rcases hold ho with ho|⟨hp, hv, hu⟩
    · exact h.order i o ho
    · rw [← createObject_uids, uids_some ho, hp, hv, hu, uids_none nothing_free]
      rfl
  · rcases hold ho with ho|⟨-, hv, -⟩
    · exact h.own i o ho pv hpv
    · simp [hv] at hpv

theorem createObject_tends (h : db.Sound) : db.Tends db.createObject := by
  refine Tends.ofRoot h.kin (createObject_sound h) ⟨rfl, rfl⟩ db.numObjects
    (fun i hi => by rw [createObject_ne hi]) fun i o' ho' w hw => ?_
  by_cases hi : i = db.numObjects
  · subst hi
    rw [createObject_self] at ho'
    obtain rfl := Option.some.inj ho'
    cases hw
  · rw [createObject_ne hi] at ho'
    refine ⟨o', ho', hw, fun hb => ?_⟩
    rcases Relation.ReflTransGen.cases_tail hb with he|⟨c, -, hc⟩
    · exact hi he.symm
    · have hs := (h.kin.above_isSome hc).2
      rw [kin_isSome, next_free] at hs
      cases hs

end Create

theorem setKin_kin {db : Db} {hk : Heap ℤ} (hsome : ∀ i, (hk i).isSome = (db.objects i).isSome) :
    (db.setKin hk).kin = hk := by
  funext i
  have hs := hsome i
  cases ho : db.objects i with
  | none =>
    rw [ho, Option.isSome_none, Option.isSome_eq_false_iff, Option.isNone_iff_eq_none] at hs
    simp [kin, setKin, mapObjects, ho, hs]
  | some o =>
    rw [ho, Option.isSome_some] at hs
    obtain ⟨l, hl⟩ := Option.isSome_iff_exists.mp hs
    simp [kin, setKin, mapObjects, ho, hl]

section Place
variable {db : Db} {hp : Heap ℤ} (hsome : ∀ i, (hp i).isSome = (db.objects i).isSome)
include hsome

theorem setPlace_place : (db.setPlace hp).place = hp := by
  funext i
  have hs := hsome i
  cases ho : db.objects i with
  | none =>
    rw [ho, Option.isSome_none, Option.isSome_eq_false_iff, Option.isNone_iff_eq_none] at hs
    simp [place, setPlace, mapObjects, ho, hs]
  | some o =>
    rw [ho, Option.isSome_some] at hs
    obtain ⟨l, hl⟩ := Option.isSome_iff_exists.mp hs
    simp [place, setPlace, mapObjects, ho, hl]

omit hsome in
theorem setPlace_field {β : Type} (g : Object → β) (hg : ∀ o l, g { o with place := l } = g o)
    (i : ℤ) : ((db.setPlace hp).objects i).map g = (db.objects i).map g := by
  rw [setPlace, mapObjects, Option.map_map]
  congr 1
  funext o
  exact hg o _

omit hsome in
theorem setPlace_kin : (db.setPlace hp).kin = db.kin := by
  funext i
  exact setPlace_field (·.kin) (fun _ _ => rfl) i

end Place

/-- Locations were changed, and nothing else was. -/
structure Moved (db db' : Db) : Prop where
  place : IsForest nothing db'.place
  size : db'.numObjects = db.numObjects
  uid : db'.nextUid = db.nextUid
  heap : db'.wpds = db.wpds ∧ db'.nextWpd = db.nextWpd
  table : db'.vcTable = db.vcTable
  rest : ∀ i, (db'.objects i).map (fun o => { o with place := orphan }) =
    (db.objects i).map fun o => { o with place := orphan }

namespace Moved
variable {db db' : Db}

theorem refl (h : IsForest nothing db.place) : db.Moved db :=
  ⟨h, rfl, rfl, ⟨rfl, rfl⟩, rfl, fun _ => rfl⟩

theorem trans {db'' : Db} (h : db.Moved db') (h' : db'.Moved db'') : db.Moved db'' :=
  ⟨h'.place, h'.size.trans h.size, h'.uid.trans h.uid,
    ⟨h'.heap.1.trans h.heap.1, h'.heap.2.trans h.heap.2⟩, h'.table.trans h.table,
    fun i => (h'.rest i).trans (h.rest i)⟩

theorem field (h : db.Moved db') {β : Type} (g : Object → β)
    (hg : ∀ o : Object, g { o with place := orphan } = g o) (i : ℤ) :
    (db'.objects i).map g = (db.objects i).map g := by
  have := congrArg (Option.map g) (h.rest i)
  rw [Option.map_map, Option.map_map] at this
  have hc : (g ∘ fun o : Object => { o with place := orphan }) = g := funext hg
  rwa [hc] at this

theorem isSome (h : db.Moved db') (i : ℤ) : (db'.objects i).isSome = (db.objects i).isSome := by
  simpa using congrArg Option.isSome (h.rest i)

theorem kin_eq (h : db.Moved db') : db'.kin = db.kin := by
  funext i
  exact h.field (·.kin) (fun _ => rfl) i

theorem forested (h : db.Moved db') (hf : IsForest nothing db.kin) : db'.Forested :=
  ⟨h.kin_eq ▸ hf, h.place⟩

theorem sound (h : db.Moved db') (hs : db.Sound) : db'.Sound :=
  hs.face (h.field _ fun _ => rfl) (h.kin_eq ▸ hs.kin) h.place (le_of_eq h.uid.symm)

theorem tends (h : db.Moved db') (hs : db.Sound) : db.Tends db' :=
  .ofSame hs.kin (h.sound hs) h.heap (h.field _ fun _ => rfl)

theorem setPlace {hp : Heap ℤ} (hf : IsForest nothing hp)
    (hsome : ∀ i, (hp i).isSome = (db.objects i).isSome) : db.Moved (db.setPlace hp) := by
  refine ⟨?_, rfl, rfl, ⟨rfl, rfl⟩, rfl, setPlace_field _ fun _ _ => rfl⟩
  rw [setPlace_place hsome]
  exact hf

end Moved

theorem valid_iff (db : Db) {i : ℤ} (hi : i = nothing ∨ (db.objects i).isSome = true) :
    db.valid i = true ↔ ¬i = nothing := by
  rw [valid, find_eq]
  constructor
  · rintro hs rfl
    rw [nothing_free] at hs
    cases hs
  · exact fun hne => hi.resolve_left hne

section Location
variable {db : Db} (h : IsForest nothing db.place) {oid : ℤ} (hoid : (db.objects oid).isSome = true) {loc : ℤ}
  (hloc : loc = nothing ∨ (db.objects loc).isSome = true)
  (hnot : ¬Below nothing db.place loc oid)
include h hoid hloc hnot

theorem changeLocation_eq : ∃ hp, db.changeLocation oid loc = .ok (db.setPlace hp) ∧
    IsForest nothing hp ∧ (∀ i, (hp i).isSome = (db.objects i).isSome) ∧
    ∀ i, upOf nothing hp i = Function.update (upOf nothing db.place) oid loc i := by
  obtain ⟨hp, hr, hf, hsome, hup⟩ := h.reparent
    ((place_isSome oid).trans hoid) (by rw [place_isSome]; exact hloc) hnot db.place_small
  refine ⟨hp, ?_, hf, fun i => (hsome i).trans (place_isSome i), hup⟩
  obtain ⟨o, ho⟩ := Option.isSome_iff_exists.mp hoid
  have hup := db.valid_iff (i := o.place.up) (by
    rw [← place_isSome]
    exact h.up oid o.place (place_some ho))
  rw [reparent] at hr
  simp only [place_some ho, Option.bind_eq_bind, Option.bind_some, Option.bind_eq_some_iff] at hr
  obtain ⟨h1, hd, h2, ha, hr⟩ := hr
  have hs : setUp h2 oid loc = hp := Option.some.inj hr
  rw [detach] at hd
  have hlast : (if db.valid loc = true then (do
        let place ← deref (append nothing db.fuel h1 loc oid)
        return db.setPlace (setUp place oid loc))
      else (do
        let place ← Except.ok h1
        return db.setPlace (setUp place oid loc))) = Except.ok (db.setPlace hp) := by
    rw [attach] at ha
    by_cases hn : loc = nothing
    · rw [if_pos hn] at ha
      rw [if_neg (by rw [db.valid_iff hloc]; exact fun hne => hne hn), Option.some.inj ha, ← hs]
      rfl
    · rw [if_neg hn] at ha
      rw [if_pos ((db.valid_iff hloc).mpr hn), ha, ← hs]
      rfl
  refine bind_ok.mpr ⟨o, object_ok ho, ?_⟩
  dsimp only
  by_cases hn : o.place.up = nothing
  · rw [if_pos hn] at hd
    rw [if_neg (by rw [hup]; exact fun hne => hne hn), Option.some.inj hd]
    refine bind_ok.mpr ⟨h1, rfl, ?_⟩
    exact hlast
  · rw [if_neg hn] at hd
    rw [if_pos (hup.mpr hn), hd]
    refine bind_ok.mpr ⟨h1, rfl, ?_⟩
    exact hlast

theorem changeLocation_moved : ∃ db', db.changeLocation oid loc = .ok db' ∧ db.Moved db' := by
  obtain ⟨hp, he, hf, hsome, -⟩ := changeLocation_eq h hoid hloc hnot
  exact ⟨_, he, .setPlace hf hsome⟩

end Location

section Destroy
variable {db : Db} {oid : ℤ} {o : Object} (ho : db.objects oid = some o)
include ho

/-- An object without a list of children has none. -/
theorem barren (hf : IsForest nothing db.kin) (hfirst : o.kin.first = nothing) (i : ℤ) :
    ¬Above nothing db.kin i oid := by
  obtain ⟨xs, hc, -, hmem⟩ := hf.children (kin_some ho)
  rw [hfirst] at hc
  have hx : xs = [] := hc.unique .nil
  rw [← hmem, hx]
  simp

omit ho in
theorem dropObject_kin : (db.dropObject oid).kin = dropNode db.kin oid := by
  funext i
  by_cases hi : i = oid <;> simp [kin, dropObject, dropNode, hi]

omit ho in
theorem dropObject_place : (db.dropObject oid).place = dropNode db.place oid := by
  funext i
  by_cases hi : i = oid <;> simp [place, dropObject, dropNode, hi]

variable (hup : o.kin.up = nothing) (hfirst : o.kin.first = nothing)
  (hloc : o.place.up = nothing) (hcont : o.place.first = nothing)
include hup hfirst hloc hcont

theorem dropObject_forested (h : db.Forested) : (db.dropObject oid).Forested := by
  constructor
  · rw [dropObject_kin]
    exact h.kin.dropNode (kin_some ho) hup hfirst
  · rw [dropObject_place]
    exact h.place.dropNode (place_some ho) hloc hcont

theorem dropObject_sound (h : db.Sound) : (db.dropObject oid).Sound := by
  have hf := dropObject_forested ho hup hfirst hloc hcont h.forested
  have hbelow : Below nothing (db.dropObject oid).kin = Below nothing db.kin := by
    have : Above nothing (db.dropObject oid).kin = Above nothing db.kin := by
      funext i j
      rw [dropObject_kin]
      exact propext (dropNode_above (kin_some ho) hup i j)
    rw [Below, Below, this]
  have hold : ∀ {i oi}, (db.dropObject oid).objects i = some oi → i ≠ oid ∧ db.objects i = some oi := by
    intro i oi hoi
    by_cases hi : i = oid
    · simp [dropObject, hi] at hoi
    · exact ⟨hi, by simpa [dropObject, hi] using hoi⟩
  have huids : ∀ {i}, i ≠ oid → (db.dropObject oid).uids i = db.uids i := by
    intro i hi
    simp [uids, dropObject, hi]
  refine ⟨hf.kin, hf.place, ⟨fun i j oi oj hi hj hb => ?_, fun i oi hi => ?_, fun i oi hi => ?_,
    fun i j oi oj hi hj => ?_⟩, fun i oi hi => ?_, fun i oi hi => ?_⟩
  · rw [hbelow] at hb
    exact h.named.apart i j oi oj (hold hi).2 (hold hj).2 hb
  · exact h.named.made i oi (hold hi).2
  · exact h.named.once i oi (hold hi).2
  · exact h.named.single i j oi oj (hold hi).2 (hold hj).2
  · obtain ⟨hne, hi⟩ := hold hi
    rw [huids hne, huids, h.order i oi hi]
    intro he
    apply barren ho h.kin hfirst i
    refine above_iff.mpr ⟨oi, hi, he, ?_⟩
    rintro rfl
    rw [nothing_free] at ho
    cases ho
  · exact h.own i oi (hold hi).2

theorem destroyObject_eq : db.destroyObject oid = .ok { db.dropObject oid with
    allUsers := if db.isUser oid then db.allUsers.erase oid else db.allUsers
    vcTable := db.affectedCallableVerbLookup.vcTable } := by
  rw [destroyObject, find_eq, ho]
  simp only [hup, hfirst, hloc, hcont, ne_eq, not_true, or_self, if_false]

theorem destroyObject_forested (h : db.Forested) :
    ∃ db', db.destroyObject oid = .ok db' ∧ db'.Forested := by
  have hf := dropObject_forested ho hup hfirst hloc hcont h
  exact ⟨_, destroyObject_eq ho hup hfirst hloc hcont, ⟨hf.kin, hf.place⟩⟩

theorem dropObject_tends (h : db.Sound) : db.Tends (db.dropObject oid) := by
  refine Tends.ofRoot h.kin (dropObject_sound ho hup hfirst hloc hcont h) ⟨rfl, rfl⟩ oid
    (fun i hi => by simp [dropObject, hi]) fun i o' ho' w hw => ?_
  by_cases hi : i = oid
  · simp [dropObject, hi] at ho'
  · refine ⟨o', by simpa [dropObject, hi] using ho', hw, fun hb => ?_⟩
    rcases Relation.ReflTransGen.cases_tail hb with he|⟨c, -, hc⟩
    · exact hi he.symm
    · exact barren ho h.kin hfirst c hc

theorem destroyObject_tends (h : db.Sound) :
    ∃ db', db.destroyObject oid = .ok db' ∧ db.Tends db' := by
  have ht := dropObject_tends ho hup hfirst hloc hcont h
  have hs := ht.sound
  refine ⟨_, destroyObject_eq ho hup hfirst hloc hcont, ht.trans ?_⟩
  have hf : ∀ i, ((db.dropObject oid).objects i).map Object.face =
      ((db.dropObject oid).objects i).map Object.face := fun _ => rfl
  exact .ofSame hs.kin (hs.face hf hs.kin hs.place (le_refl _)) ⟨rfl, rfl⟩ fun _ => rfl

end Destroy

section Move
variable (callVerb : CallVerb) {db : Db} (h : IsForest nothing db.place)

theorem exitMove_ok (db : Db) (what dest : ℤ) : ∃ st, exitMove callVerb db what dest = .ok st := by
  rw [exitMove]
  by_cases hv : (db.valid dest && db.valid what) = true
  · rw [if_pos hv]
    rw [Bool.and_eq_true, valid, valid, find_eq, find_eq] at hv
    obtain ⟨o, ho⟩ := Option.isSome_iff_exists.mp hv.2
    rw [object_ok ho]
    by_cases hl : o.place.up = dest
    · cases callVerb dest "enterfunc" <;>
        exact ⟨_, by simp only [bind, Except.bind, if_pos hl]; rfl⟩
    · exact ⟨_, by simp only [bind, Except.bind, if_neg hl]; rfl⟩
  · exact ⟨_, by rw [if_neg hv]; rfl⟩

include h

theorem acceptsDecided_moved (what dest : ℤ) (accepts : Bool) (progr : ℤ) :
    ∃ r, acceptsDecided callVerb db what dest accepts progr = .ok r ∧ db.Moved r.2 := by
  rw [acceptsDecided]
  by_cases h1 : (!db.isWizard progr && !accepts) = true
  · exact ⟨(.fails .nacc, db), by rw [if_pos h1]; rfl, .refl h⟩
  rw [if_neg h1]
  by_cases h2 : (!db.valid what || (dest ≠ nothing && !db.valid dest)) = true
  · exact ⟨(.done zero, db), by rw [if_pos h2]; rfl, .refl h⟩
  rw [if_neg h2]
  simp only [ne_eq, Bool.or_eq_true, Bool.not_eq_true', Bool.and_eq_true, decide_eq_true_eq,
    not_or, not_and, valid, find_eq, Bool.not_eq_false] at h2
  obtain ⟨hwhat, hdest⟩ := h2
  have hdest : dest = nothing ∨ (db.objects dest).isSome = true := or_iff_not_imp_left.mpr hdest
  obtain ⟨o, ho⟩ := Option.isSome_iff_exists.mp hwhat
  have hne : what ≠ nothing := by
    rintro rfl
    rw [nothing_free] at ho
    cases ho
  by_cases hsame : o.place.up = dest
  · refine ⟨(.done zero, db), bind_ok.mpr ⟨o, object_ok ho, ?_⟩, .refl h⟩
    rw [if_pos hsame]
    rfl
  obtain ⟨b, hb, hbelow⟩ := h.reaches db.place_small (i := dest)
    (by rw [place_isSome]; exact hdest) hne
  cases b with
  | true =>
    refine ⟨(.fails .recmove, db), bind_ok.mpr ⟨o, object_ok ho, ?_⟩, .refl h⟩
    rw [if_neg hsame]
    exact bind_ok.mpr ⟨true, by rw [hb]; rfl, rfl⟩
  | false =>
    have hnot : ¬Below nothing db.place dest what := fun hx => by simpa using hbelow.mpr hx
    obtain ⟨db', hdb', hs⟩ := changeLocation_moved h hwhat hdest hnot
    obtain ⟨st, hst⟩ := exitMove_ok callVerb db' what dest
    cases hcall : callVerb o.place.up "exitfunc" with
    | none =>
      refine ⟨(.calls 3, db'), bind_ok.mpr ⟨o, object_ok ho, ?_⟩, hs⟩
      rw [if_neg hsame]
      exact bind_ok.mpr ⟨false, by rw [hb]; rfl, bind_ok.mpr ⟨db', hdb', by
        simp only [hcall, pure, Except.pure]⟩⟩
    | maxrec =>
      refine ⟨(.fails .maxrec, db'), bind_ok.mpr ⟨o, object_ok ho, ?_⟩, hs⟩
      rw [if_neg hsame]
      exact bind_ok.mpr ⟨false, by rw [hb]; rfl, bind_ok.mpr ⟨db', hdb', by
        simp only [hcall, pure, Except.pure]⟩⟩
    | _ =>
      refine ⟨(st, db'), bind_ok.mpr ⟨o, object_ok ho, ?_⟩, hs⟩
      rw [if_neg hsame]
      exact bind_ok.mpr ⟨false, by rw [hb]; rfl, bind_ok.mpr ⟨db', hdb', by
        simp only [hcall, hst, bind, Except.bind, pure, Except.pure]⟩⟩

/-- Every stage of a move ends and changes locations only. -/
theorem doMove_moved {next : ℕ} (hnext : next ∈ [1, 2, 3, 4]) (what dest : ℤ) (accepts : Bool)
    (progr : ℤ) : ∃ r, doMove callVerb db next what dest accepts progr = .ok r ∧ db.Moved r.2 := by
  simp only [List.mem_cons, List.not_mem_nil, or_false] at hnext
  rcases hnext with rfl|rfl|rfl|rfl
  · rw [doMove]
    split
    · exact ⟨_, rfl, .refl h⟩
    · split
      · exact ⟨_, rfl, .refl h⟩
      · split
        · exact ⟨_, rfl, .refl h⟩
        · split
          · exact acceptsDecided_moved callVerb h what dest true progr
          · split
            · exact ⟨_, rfl, .refl h⟩
            · exact acceptsDecided_moved callVerb h what dest false progr
            · exact ⟨_, rfl, .refl h⟩
  · exact acceptsDecided_moved callVerb h what dest accepts progr
  · obtain ⟨st, hst⟩ := exitMove_ok callVerb db what dest
    exact ⟨(st, db), bind_ok.mpr ⟨st, hst, rfl⟩, .refl h⟩
  · exact ⟨_, rfl, .refl h⟩

end Move

end Db
end LambdaMoo.Database
