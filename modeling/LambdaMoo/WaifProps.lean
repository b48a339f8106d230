import LambdaMoo.Names
import LambdaMoo.WaifStore

/-!
# Properties of waifs

A waif whose values fit its list of properties is a map from the properties
to values: reading and writing a property go through the place the bitmap
gives it, and no two properties have one place.
-/

set_option autoImplicit false

namespace LambdaMoo.Database

open World

/-- The names `:a` and `:b`. -/
theorem noNul_a : (0 : Byte) ∉ ([58, 97] : Str) := by decide
theorem noNul_b : (0 : Byte) ∉ ([58, 98] : Str) := by decide

/-- An object that owns itself and defines one property of its waifs. -/
def classObject : Object where
  name := ⟨[], noNul_nil⟩
  owner := 0
  flags := ⟨false, false, false, false, false, false⟩
  kin := ⟨nothing, nothing, nothing⟩
  place := ⟨nothing, nothing, nothing⟩
  verbdefs := []
  propdefs := [⟨⟨0, ⟨[58, 97], noNul_a⟩⟩, 0⟩]
  propval := [⟨zero, 0, ⟨true, false, false⟩, 0⟩]
  waifPropdefs := none

/-- The list is there, and there is a value for each property that has a place. -/
structure Waif.Fits (db : Db) (w : Waif) : Prop where
  null : w.propdefs = none → w.propvals = []
  made : ∀ wpd, w.propdefs = some wpd → wpd < db.nextWpd
  count : ∀ wpd, w.propdefs = some wpd →
    w.propvals.length = propvalCount (db.wpds wpd).length w.map

/-- The value of a property, clear where it has no place. -/
def Waif.value (w : Waif) (i : ℕ) : Var :=
  (Packed.entry (fun k => w.map.stored k = true) w.propvals i).getD .clear

section Places
variable {w : Waif} {length : ℕ} (hl : w.propvals.length = propvalCount length w.map)

theorem lt_limit {length i : ℕ} (hi : i < length) : i < max length nMappableProps :=
  lt_max_of_lt_left hi

include hl

theorem place_lt {i : ℕ} (hi : i < length) (hs : w.map.stored i = true) :
    w.map.place i < w.propvals.length := by
  rw [w.map.propvalCount_eq] at hl
  exact Packed.entry_isSome hl hs (lt_limit hi)

theorem valueAt_eq {i : ℕ} (hi : i < length) :
    valueAt w (propvalOffset w.map i) = .ok (w.value i) := by
  rw [w.map.propvalOffset_eq, Waif.value, Packed.entry]
  by_cases hs : w.map.stored i = true
  · have hlt := place_lt hl hi hs
    rw [if_pos hs, if_pos hs, valueAt]
    change Db.deref w.propvals[w.map.place i]? = .ok (w.propvals[w.map.place i]?.getD .clear)
    rw [List.getElem?_eq_getElem hlt]
    rfl
  · rw [if_neg hs, if_neg hs]
    rfl

/-- Storing a value changes that of one property. -/
theorem storeVal_spec {i : ℕ} (hi : i < length) (val : Var) :
    ∃ w', storeVal w length i (propvalOffset w.map i) val = .ok w' ∧ w'.cls = w.cls ∧
      w'.owner = w.owner ∧ w'.propdefs = w.propdefs ∧
      w'.propvals.length = propvalCount length w'.map ∧ w'.value i = val ∧
      ∀ j, j ≠ i → w'.value j = w.value j := by
  have hc := hl
  rw [w.map.propvalCount_eq] at hc
  rw [w.map.propvalOffset_eq]
  by_cases hs : w.map.stored i = true
  · rw [if_pos hs, storeVal, if_pos (place_lt hl hi hs)]
    refine ⟨_, rfl, rfl, rfl, rfl, by rw [List.length_set, hl], ?_, fun j hj => ?_⟩
    · rw [Waif.value]
      exact congrArg (Option.getD · Var.clear) (Packed.entry_set_self hc hs (lt_limit hi) val)
    · rw [Waif.value, Waif.value]
      exact congrArg (Option.getD · Var.clear) (Packed.entry_set_ne w.propvals hs hj val)
  · have hlt : i < nMappableProps := by
      by_contra hge
      exact hs (w.map.stored_of_ge (Nat.not_lt.mp hge))
    have hm : w.map.propMapped i = false := by
      rw [← w.map.stored_of_lt hlt]
      exact Bool.eq_false_iff.mpr hs
    have hq := w.map.stored_mapProp hlt
    have hle : w.map.place i ≤ w.propvals.length := by
      rw [hc]
      exact Nat.count_monotone _ (le_of_lt (lt_limit hi))
    have hi' : (w.map.mapProp i).stored i = true := (hq i).mpr (.inr rfl)
    have hplace : w.map.place i = (w.map.mapProp i).place i := by
      rw [WaifMap.place, WaifMap.place, Packed.count_insert hq hs, if_neg (lt_irrefl i),
        Nat.add_zero]
    have hlen : (w.propvals.insertIdx (w.map.place i) Var.clear).length
        = (w.map.mapProp i).place (max length nMappableProps) := by
      rw [List.length_insertIdx_of_le_length hle, hc, WaifMap.place, WaifMap.place,
        Packed.count_insert hq hs, if_pos (lt_limit hi)]
    rw [if_neg hs, storeVal, allocPropvalOffset_eq w.map hlt hm w.propvals length w rfl rfl hl]
    refine ⟨_, rfl, rfl, rfl, rfl, ?_, ?_, fun j hj => ?_⟩
    · rw [List.length_set, hlen, WaifMap.propvalCount_eq]
    · have h := Packed.entry_set_self hlen hi' (lt_limit hi) val
      rw [Waif.value]
      simp only [hplace]
      rw [hplace] at h
      exact congrArg (Option.getD · Var.clear) h
    · have h := Packed.entry_set_ne (p := fun k => (w.map.mapProp i).stored k = true)
        (w.propvals.insertIdx (w.map.place i) Var.clear) hi' hj val
      rw [Waif.value, Waif.value, ← Packed.entry_insert_ne w.propvals hq hs hj Var.clear]
      change Packed.entry _ (List.set _ ((w.map.mapProp i).place i) val) j = _ at h
      rw [← hplace] at h
      exact congrArg (Option.getD · Var.clear) h

end Places

/-- A database with lists of waif properties made for some of its objects. -/
structure Db.Grown (db db' : Db) : Prop where
  next : db.nextWpd ≤ db'.nextWpd
  wpds : ∀ p, p < db.nextWpd → db'.wpds p = db.wpds p
  objects : ∀ i, db'.objects i = db.objects i ∨ ∃ o p, db.objects i = some o ∧
    db'.objects i = some { o with waifPropdefs := some p } ∧ p < db'.nextWpd

theorem Db.Grown.refl (db : Db) : db.Grown db :=
  ⟨le_rfl, fun _ _ => rfl, fun _ => .inl rfl⟩

theorem Db.genWaifPropdefs_grown {db db' : Db} {oid : ℤ} (h : db.genWaifPropdefs oid = .ok db') :
    db.Grown db' ∧ db'.nextWpd = db.nextWpd+1 ∧ ∀ o, db.objects oid = some o →
      db'.objects oid = some { o with waifPropdefs := some db.nextWpd } := by
  obtain ⟨chain, -, h⟩ := bind_ok.mp h
  have h := pure_ok.mp h
  subst h
  refine ⟨⟨Nat.le_succ _, ?_, ?_⟩, rfl, fun o ho => modify_self ho _⟩
  · intro p hp
    exact Function.update_of_ne (Nat.ne_of_lt hp) _ _
  · intro i
    by_cases hi : i = oid
    · subst hi
      cases ho : db.objects i with
      | none => simp [modify, ho]
      | some o => exact .inr ⟨o, db.nextWpd, rfl, modify_self ho _, Nat.lt_succ_self _⟩
    · exact .inl (modify_ne db hi _)

theorem Db.classPropdefs_grown {db db' : Db} {oid : ℤ} {o : Object} {wpd : ℕ}
    (ho : db.objects oid = some o) (h : db.classPropdefs oid o = .ok (wpd, db')) :
    db.Grown db' ∧ (∃ o', db'.objects oid = some o' ∧ o'.waifPropdefs = some wpd) := by
  rw [classPropdefs] at h
  cases hw : o.waifPropdefs with
  | some p =>
    rw [hw] at h
    obtain ⟨rfl, rfl⟩ : p = wpd ∧ db = db' := by simpa using h
    exact ⟨Grown.refl db, o, ho, hw⟩
  | none =>
    rw [hw] at h
    obtain ⟨db1, hg, h⟩ := bind_ok.mp h
    obtain ⟨rfl, rfl⟩ : db.nextWpd = wpd ∧ db1 = db' := by simpa using pure_ok.mp h
    obtain ⟨hgr, -, hself⟩ := genWaifPropdefs_grown hg
    exact ⟨hgr, _, hself o ho, rfl⟩

theorem Waif.Fits.grown {db db' : Db} {w : Waif} (h : w.Fits db) (hg : db.Grown db') :
    w.Fits db' where
  null := h.null
  made wpd hw := lt_of_lt_of_le (h.made wpd hw) hg.next
  count wpd hw := by rw [hg.wpds wpd (h.made wpd hw), h.count wpd hw]

theorem transfer_length {map : WaifMap} {bs a : List Propdef} {i : ℕ} {ov xfer : List Var}
    (h : transfer map bs i a ov = .ok xfer) : xfer.length = bs.length := by
  induction bs generalizing i a ov xfer with
  | nil =>
    obtain ⟨_, -, h⟩ := bind_ok.mp h
    rw [← pure_ok.mp h]
    rfl
  | cons b bs ih =>
    rw [transfer] at h
    cases hk : a.findIdx? (·.name = b.name) with
    | none =>
      rw [hk] at h
      obtain ⟨rest, hr, h⟩ := bind_ok.mp h
      rw [← pure_ok.mp h, List.length_cons, List.length_cons, ih hr]
    | some k =>
      rw [hk] at h
      obtain ⟨ov1, -, h⟩ := bind_ok.mp h
      obtain ⟨⟨v, ov2⟩, -, h⟩ := bind_ok.mp h
      obtain ⟨rest, hr, h⟩ := bind_ok.mp h
      rw [← pure_ok.mp h, List.length_cons, List.length_cons, ih hr]

theorem packVals_length {xfer vals : List Var} (h : packVals xfer = .ok vals) :
    vals.length = propvalCount xfer.length (packMap xfer) := by
  rw [packVals] at h
  split at h
  · rename_i hle
    obtain rfl := Except.ok.inj h
    rw [List.length_append, List.length_replicate]
    omega
  · cases h

theorem remap_fields {db : Db} {w w' : Waif} {wpd : ℕ} (h : remap db w wpd = .ok w') :
    w'.cls = w.cls ∧ w'.owner = w.owner ∧ w'.propdefs = some wpd ∧
      w'.propvals.length = propvalCount (db.wpds wpd).length w'.map := by
  rw [remap] at h
  split at h
  · obtain rfl := Except.ok.inj h
    exact ⟨rfl, rfl, rfl, List.length_replicate ..⟩
  · obtain ⟨old, -, h⟩ := bind_ok.mp h
    obtain ⟨xfer, hx, h⟩ := bind_ok.mp h
    obtain ⟨vals, hv, h⟩ := bind_ok.mp h
    obtain rfl := pure_ok.mp h
    exact ⟨rfl, rfl, rfl, by rw [packVals_length hv, transfer_length hx]⟩

theorem Waif.fits_of_some {db : Db} {w : Waif} {wpd : ℕ} (hp : w.propdefs = some wpd)
    (hlt : wpd < db.nextWpd) (hl : w.propvals.length = propvalCount (db.wpds wpd).length w.map) :
    w.Fits db where
  null h := by
    rw [hp] at h
    cases h
  made p h := Option.some.inj (hp.symm.trans h) ▸ hlt
  count p h := Option.some.inj (hp.symm.trans h) ▸ hl

/-- What bringing a waif up to date does. -/
theorem updateWaif_cases {db db' : Db} {w w' : Waif} (h : updateWaif db w = .ok (db', w')) :
    (db.objects w.cls = none ∧ db' = db ∧ w' = { w with propdefs := none, propvals := [] }) ∨
    (∃ o, db.objects w.cls = some o ∧ w.propdefs = o.waifPropdefs ∧ db' = db ∧ w' = w) ∨
    ∃ o wpd, db.objects w.cls = some o ∧ w.propdefs ≠ o.waifPropdefs ∧
      db.classPropdefs w.cls o = .ok (wpd, db') ∧ remap db' w wpd = .ok w' := by
  rw [updateWaif, db.find_eq] at h
  cases ho : db.objects w.cls with
  | none =>
    rw [ho] at h
    obtain ⟨rfl, rfl⟩ : db = db' ∧ _ = w' := by simpa using h
    exact .inl ⟨rfl, rfl, rfl⟩
  | some o =>
    rw [ho] at h
    by_cases hp : w.propdefs = o.waifPropdefs
    · simp only [hp, if_true] at h
      obtain ⟨rfl, rfl⟩ : db = db' ∧ w = w' := by simpa using h
      exact .inr (.inl ⟨o, rfl, hp, rfl, rfl⟩)
    · simp only [hp, if_false] at h
      obtain ⟨⟨wpd, db1⟩, hc, h⟩ := bind_ok.mp h
      obtain ⟨w1, hr, h⟩ := bind_ok.mp h
      obtain ⟨rfl, rfl⟩ : db1 = db' ∧ w1 = w' := by simpa using pure_ok.mp h
      exact .inr (.inr ⟨o, wpd, rfl, hp, hc, hr⟩)

/-- All lists of waif properties have been made. -/
def Db.Made (db : Db) : Prop :=
  ∀ i o, db.objects i = some o → ∀ p, o.waifPropdefs = some p → p < db.nextWpd

theorem Db.Made.grown {db db' : Db} (h : db.Made) (hg : db.Grown db') : db'.Made := by
  intro i o ho p hp
  rcases hg.objects i with he|⟨o1, p1, -, h1, hlt⟩
  · rw [he] at ho
    exact lt_of_lt_of_le (h i o ho p hp) hg.next
  · rw [h1] at ho
    obtain rfl := Option.some.inj ho
    rw [← Option.some.inj hp]
    exact hlt

theorem updateWaif_fits {db db' : Db} {w w' : Waif} (hm : db.Made) (hw : w.Fits db)
    (h : updateWaif db w = .ok (db', w')) :
    db.Grown db' ∧ w'.Fits db' ∧ w'.cls = w.cls ∧ w'.owner = w.owner := by
  rcases updateWaif_cases h with ⟨-, rfl, rfl⟩|⟨o, -, -, rfl, rfl⟩|⟨o, wpd, ho, -, hc, hr⟩
  · exact ⟨.refl _, ⟨fun _ => rfl, by simp, by simp⟩, rfl, rfl⟩
  · exact ⟨.refl _, hw, rfl, rfl⟩
  · obtain ⟨hg, o', ho', hp⟩ := Db.classPropdefs_grown ho hc
    obtain ⟨hcls, hown, hpd, hl⟩ := remap_fields hr
    exact ⟨hg, Waif.fits_of_some hpd (hm.grown hg _ o' ho' wpd hp) hl, hcls, hown⟩

/-- A waif that was just brought up to date is left alone, whatever its values. -/
theorem updateWaif_again {db db' : Db} {w w' w'' : Waif} (h : updateWaif db w = .ok (db', w'))
    (hc : w''.cls = w'.cls) (hp : w''.propdefs = w'.propdefs)
    (hv : db.objects w.cls = none → w'' = w') : updateWaif db' w'' = .ok (db', w'') := by
  rcases updateWaif_cases h with ⟨hn, rfl, rfl⟩|⟨o, ho, hpd, rfl, rfl⟩|⟨o, wpd, ho, -, hcl, hr⟩
  · rw [hv hn, updateWaif, Db.find_eq, hn]
  · rw [updateWaif, Db.find_eq, hc, ho]
    simp [hp, hpd]
  · obtain ⟨-, o', ho', hp'⟩ := Db.classPropdefs_grown ho hcl
    obtain ⟨hcls, -, hpd, -⟩ := remap_fields hr
    rw [updateWaif, Db.find_eq, hc, hcls, ho']
    simp [hp, hpd, hp']

theorem nextVal_mem {map : WaifMap} {i : ℕ} {ov ov' : List Var} {v : Var}
    (h : nextVal map i ov = .ok (v, ov')) : (v ∈ ov ∨ v = .clear) ∧ ov' ⊆ ov := by
  rw [nextVal.eq_def] at h
  split at h
  · cases ov with
    | nil => cases h
    | cons u us =>
      obtain ⟨rfl, rfl⟩ : u = v ∧ us = ov' := by simpa using h
      exact ⟨.inl (by simp), List.subset_cons_self u us⟩
  · obtain ⟨rfl, rfl⟩ : Var.clear = v ∧ ov = ov' := by simpa using h
    exact ⟨.inr rfl, List.Subset.refl ov⟩

theorem freeVals_subset {map : WaifMap} {n i : ℕ} {ov ov' : List Var}
    (h : freeVals map n i ov = .ok ov') : ov' ⊆ ov := by
  induction n generalizing i ov with
  | zero =>
    obtain rfl := Except.ok.inj h
    exact List.Subset.refl ov
  | succ n ih =>
    obtain ⟨⟨v, ov1⟩, hv, h⟩ := bind_ok.mp h
    exact List.Subset.trans (ih h) (nextVal_mem hv).2

theorem transfer_mem {map : WaifMap} {bs a : List Propdef} {i : ℕ} {ov xfer : List Var}
    (h : transfer map bs i a ov = .ok xfer) : ∀ v ∈ xfer, v ∈ ov ∨ v = .clear := by
  induction bs generalizing i a ov xfer with
  | nil =>
    obtain ⟨_, -, h⟩ := bind_ok.mp h
    obtain rfl := pure_ok.mp h
    simp
  | cons b bs ih =>
    rw [transfer] at h
    cases hk : a.findIdx? (·.name = b.name) with
    | none =>
      rw [hk] at h
      obtain ⟨rest, hr, h⟩ := bind_ok.mp h
      obtain rfl := pure_ok.mp h
      intro v hv
      rcases List.mem_cons.mp hv with rfl|hv
      · exact .inr rfl
      · exact ih hr v hv
    | some k =>
      rw [hk] at h
      obtain ⟨ov1, h1, h⟩ := bind_ok.mp h
      obtain ⟨⟨u, ov2⟩, h2, h⟩ := bind_ok.mp h
      obtain ⟨rest, hr, h⟩ := bind_ok.mp h
      obtain rfl := pure_ok.mp h
      have hs1 := freeVals_subset h1
      obtain ⟨hu, hs2⟩ := nextVal_mem h2
      intro v hv
      rcases List.mem_cons.mp hv with rfl|hv
      · exact hu.imp_left fun hm => hs1 hm
      · exact (ih hr v hv).imp_left fun hm => hs1 (hs2 hm)

theorem packVals_mem {xfer vals : List Var} (h : packVals xfer = .ok vals) :
    ∀ v ∈ vals, v ∈ xfer ∨ v = .clear := by
  rw [packVals] at h
  split at h
  · obtain rfl := Except.ok.inj h
    intro v hv
    rcases List.mem_append.mp hv with hv|hv
    · rcases List.mem_append.mp hv with hv|hv
      · exact .inl (List.mem_of_mem_take (List.mem_filter.mp hv).1)
      · exact .inl (List.mem_of_mem_drop hv)
    · exact .inr (List.eq_of_mem_replicate hv)
  · cases h

/-- Bringing a waif up to date gives it no new values. -/
theorem updateWaif_mem {db db' : Db} {w w' : Waif} (h : updateWaif db w = .ok (db', w')) :
    ∀ v ∈ w'.propvals, v ∈ w.propvals ∨ v = .clear := by
  rcases updateWaif_cases h with ⟨-, -, rfl⟩|⟨o, -, -, -, rfl⟩|⟨o, wpd, -, -, -, hr⟩
  · simp
  · exact fun v hv => .inl hv
  · rw [remap] at hr
    split at hr
    · obtain rfl := Except.ok.inj hr
      exact fun v hv => .inr (List.eq_of_mem_replicate hv)
    · obtain ⟨old, -, hr⟩ := bind_ok.mp hr
      obtain ⟨xfer, hx, hr⟩ := bind_ok.mp hr
      obtain ⟨vals, hv, hr⟩ := bind_ok.mp hr
      obtain rfl := pure_ok.mp hr
      intro v hm
      rcases packVals_mem hv v hm with hm|hm
      · exact transfer_mem hx v hm
      · exact .inr hm

namespace World

@[simp] theorem setWaif_db (s : World) (r : WaifRef) (w : Waif) : (s.setWaif r w).db = s.db := rfl

theorem setWaif_self {s : World} {r : WaifRef} {w : Waif} (h : s.waifs r = some w) (w' : Waif) :
    (s.setWaif r w').waifs r = some w' := by
  simp [setWaif, h]

theorem setWaif_isSome (s : World) (r : WaifRef) (w : Waif) (x : WaifRef) :
    ((s.setWaif r w).waifs x).isSome = (s.waifs x).isSome := by
  by_cases h : x = r <;> simp [setWaif, h]

theorem setWaif_ne (s : World) {r r' : WaifRef} (h : r' ≠ r) (w : Waif) :
    (s.setWaif r w).waifs r' = s.waifs r' := by
  simp [setWaif, h]

theorem setWaif_same {s : World} {r : WaifRef} {w : Waif} (h : s.waifs r = some w) :
    s.setWaif r w = s := by
  have hw : (s.setWaif r w).waifs = s.waifs := by
    funext r'
    by_cases he : r' = r
    · rw [he, setWaif_self h, h]
    · exact setWaif_ne s he w
  cases s
  simpa [setWaif] using hw

theorem waif_ok {s : World} {r : WaifRef} {w : Waif} : s.waif r = .ok w ↔ s.waifs r = some w := by
  cases h : s.waifs r <;> simp [waif, Db.deref, h]

theorem updateWaifPropdefs_ok {s s' : World} {r : WaifRef} :
    s.updateWaifPropdefs r = .ok s' ↔ ∃ w db' w', s.waifs r = some w ∧
      updateWaif s.db w = .ok (db', w') ∧ s' = { s with db := db' }.setWaif r w' := by
  rw [updateWaifPropdefs]
  constructor
  · intro h
    obtain ⟨w, hw, h⟩ := bind_ok.mp h
    obtain ⟨⟨db', w'⟩, hu, h⟩ := bind_ok.mp h
    exact ⟨w, db', w', waif_ok.mp hw, hu, (pure_ok.mp h).symm⟩
  · rintro ⟨w, db', w', hw, hu, rfl⟩
    exact bind_ok.mpr ⟨w, waif_ok.mpr hw, bind_ok.mpr ⟨(db', w'), hu, rfl⟩⟩

/-- Every list has been made and every waif fits. -/
structure Ok (s : World) : Prop where
  made : s.db.Made
  fits : ∀ r w, s.waifs r = some w → w.Fits s.db

theorem Ok.setWaif {s : World} (h : s.Ok) {r : WaifRef} {w : Waif} (hw : w.Fits s.db) :
    (s.setWaif r w).Ok where
  made := h.made
  fits r' w' hr' := by
    by_cases he : r' = r
    · subst he
      cases hs : s.waifs r' with
      | none => simp [World.setWaif, hs] at hr'
      | some w0 =>
        rw [setWaif_self hs] at hr'
        exact Option.some.inj hr' ▸ hw
    · rw [setWaif_ne s he] at hr'
      exact h.fits r' w' hr'

theorem Ok.grown {s : World} (h : s.Ok) {db' : Db} (hg : s.db.Grown db') : { s with db := db' }.Ok :=
  ⟨h.made.grown hg, fun r w hw => (h.fits r w hw).grown hg⟩

theorem Ok.update {s s' : World} (h : s.Ok) {r : WaifRef} (hu : s.updateWaifPropdefs r = .ok s') :
    s'.Ok := by
  obtain ⟨w, db', w', hw, hu', rfl⟩ := updateWaifPropdefs_ok.mp hu
  obtain ⟨hg, hf, -, -⟩ := updateWaif_fits h.made (h.fits r w hw) hu'
  exact (h.grown hg).setWaif hf

/-- Bringing a waif up to date once is enough, also when its values change after that. -/
theorem update_again {s s' : World} {r : WaifRef} (hu : s.updateWaifPropdefs r = .ok s') :
    ∃ w', s'.waifs r = some w' ∧ ∀ w'', w''.cls = w'.cls → w''.propdefs = w'.propdefs →
      (w'' = w' ∨ s'.db.valid w'.cls = true) →
      (s'.setWaif r w'').updateWaifPropdefs r = .ok (s'.setWaif r w'') := by
  obtain ⟨w, db', w', hw, hup, rfl⟩ := updateWaifPropdefs_ok.mp hu
  refine ⟨w', setWaif_self hw w', fun w'' hc hp hv => ?_⟩
  have hself : (({ s with db := db' }.setWaif r w').setWaif r w'').waifs r = some w'' :=
    setWaif_self (setWaif_self hw w') w''
  refine updateWaifPropdefs_ok.mpr ⟨w'', db', w'', hself, ?_, (setWaif_same hself).symm⟩
  apply updateWaif_again hup hc hp
  intro hn
  rcases hv with hv|hv
  · exact hv
  · rcases updateWaif_cases hup with ⟨-, rfl, rfl⟩|⟨o, ho, -⟩|⟨o, wpd, ho, -⟩
    · simp [Db.valid, Db.find_eq, hn] at hv
    · rw [hn] at ho
      cases ho
    · rw [hn] at ho
      cases ho

theorem update_idem {s s' : World} {r : WaifRef} (hu : s.updateWaifPropdefs r = .ok s') :
    s'.updateWaifPropdefs r = .ok s' := by
  obtain ⟨w', hw', h⟩ := update_again hu
  have := h w' rfl rfl (.inl rfl)
  rwa [setWaif_same hw'] at this

/-- The names that are not looked up in the class. -/
def reserved (name : CStr) : Bool := named name "owner" || named name "class" || named name "wizard"

/-- Whether the class lets a programmer read a property of a waif. -/
def readable (db : Db) (w : Waif) (name : CStr) (progr : ℤ) : Result Bool := do
  let (_, pval) ← classSlot db w.cls (prefixed name) "waif propdef update failed in waif_get_prop"
  return waifPropertyAllows db w pval progr pval.perms.read

theorem readProp_congr {db : Db} {w w' : Waif} {name : CStr} (progr : ℤ) (hc : w'.cls = w.cls)
    (ho : w'.owner = w.owner) (hp : w'.propdefs = w.propdefs)
    (hval : ∀ wpd, w.propdefs = some wpd → ∀ i,
      (db.wpds wpd).findIdx? (·.named (prefixed name)) = some i →
      valueAt w' (propvalOffset w'.map i) = valueAt w (propvalOffset w.map i)) :
    readProp db w' name progr = readProp db w name progr := by
  simp only [readProp, hc, ho, hp, waifPropertyAllows]
  cases hwp : w.propdefs with
  | none => rfl
  | some wpd =>
    simp only [Db.deref, bind, Except.bind, findPropvalOffset]
    cases hi : (db.wpds wpd).findIdx? (·.named (prefixed name)) with
    | none => simp only [Option.map_none]
    | some i =>
      simp only [Option.map_some, hval wpd hwp i hi]
      rfl

/-- What is read of a property that the waif has a value for. -/
theorem readProp_value {db : Db} {w : Waif} {name : CStr} (progr : ℤ) {wpd i : ℕ} {ok : Bool}
    (hn : reserved name = false) (hv : db.valid w.cls = true) (hp : w.propdefs = some wpd)
    (hi : (db.wpds wpd).findIdx? (·.named (prefixed name)) = some i)
    (hval : valueAt w (propvalOffset w.map i) = .ok (w.value i))
    (hc : (w.value i).type ≠ .clear) (hr : readable db w name progr = .ok ok) :
    readProp db w name progr = .ok (if ok then .ok (w.value i) else .error .perm) := by
  rw [reserved, Bool.or_eq_false_iff, Bool.or_eq_false_iff] at hn
  obtain ⟨⟨n, pval⟩, hs, hr⟩ := bind_ok.mp hr
  have hr := pure_ok.mp hr
  simp only [readProp, hn.1.1, hn.1.2, hn.2, hv, hp, Db.deref, findPropvalOffset, hi,
    Option.map_some, bind, Except.bind, hval, hs, orClassValue, hc, if_false, Bool.not_true,
    Bool.false_eq_true, ← hr]
  cases waifPropertyAllows db w pval progr pval.perms.read <;> rfl

/-- What writing a property does. -/
theorem writeProp_cases {s s' : World} {r : WaifRef} {w : Waif} {name : CStr} {val : Var} {progr : ℤ}
    {e : Err} (h : s.writeProp r w name val progr = .ok (e, s')) :
    (e ≠ .none ∧ s' = s) ∨ ∃ wpd i pval n w', e = .none ∧ reserved name = false ∧
      s.db.valid w.cls = true ∧ w.propdefs = some wpd ∧
      (s.db.wpds wpd).findIdx? (·.named (prefixed name)) = some i ∧
      classSlot s.db w.cls (prefixed name) "waif propdef update failed in waif_put_prop"
        = .ok (n, pval) ∧
      waifPropertyAllows s.db w pval progr pval.perms.write = true ∧
      s.refersTo val r = .ok false ∧
      storeVal w (s.db.wpds wpd).length i (propvalOffset w.map i) val = .ok w' ∧
      s' = s.setWaif r w' := by
  rw [writeProp] at h
  have fails : ∀ {e' : Err}, e' ≠ .none → (pure (e', s) : Result (Err × World)) = .ok (e, s') →
      e ≠ .none ∧ s' = s := by
    intro e' he h
    obtain ⟨rfl, rfl⟩ : e' = e ∧ s = s' := by simpa using pure_ok.mp h
    exact ⟨he, rfl⟩
  by_cases h1 : (named name "owner" || named name "class") = true
  · rw [if_pos h1] at h
    exact .inl (fails (by decide) h)
  rw [if_neg h1] at h
  by_cases h2 : named name "wizard" = true
  · rw [if_pos h2] at h
    exact .inl (fails (by decide) h)
  rw [if_neg h2] at h
  cases hv : s.db.valid w.cls with
  | false =>
    rw [hv] at h
    exact .inl (fails (by decide) h)
  | true =>
    rw [hv] at h
    obtain ⟨wpd, hp, h⟩ := bind_ok.mp h
    have hp : w.propdefs = some wpd := by
      cases hd : w.propdefs <;> simp [Db.deref, hd] at hp
      rw [hp]
    simp only [findPropvalOffset] at h
    cases hi : (s.db.wpds wpd).findIdx? (·.named (prefixed name)) with
    | none =>
      rw [hi] at h
      exact .inl (fails (by decide) h)
    | some i =>
      rw [hi] at h
      obtain ⟨⟨n, pval⟩, hs, h⟩ := bind_ok.mp h
      cases ha : waifPropertyAllows s.db w pval progr pval.perms.write with
      | false =>
        simp only [ha] at h
        exact .inl (fails (by decide) h)
      | true =>
        simp only [ha] at h
        obtain ⟨b, hb, h⟩ := bind_ok.mp h
        cases b with
        | true => exact .inl (fails (by decide) h)
        | false =>
          obtain ⟨w', hst, h⟩ := bind_ok.mp h
          obtain ⟨rfl, rfl⟩ : Err.none = e ∧ _ = s' := by simpa using pure_ok.mp h
          refine .inr ⟨wpd, i, pval, n, w', rfl, ?_, rfl, hp, hi, hs, ha, hb, hst, rfl⟩
          rw [reserved, Bool.eq_false_iff.mpr h1, Bool.eq_false_iff.mpr h2]
          rfl

end World

end LambdaMoo.Database
