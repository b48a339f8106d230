import Mathlib.Logic.Relation
import LambdaMoo.WaifProps

/-!
# Runs of reads and writes of waif properties

In every world that waifs are made, read and written in, a waif implements a
map: a value that was written is what is read back, and no other property
changes.
-/

set_option autoImplicit false

namespace LambdaMoo.Database
namespace World

/-- No waif has been made yet. -/
def Blank (s : World) : Prop :=
  (∀ r, s.waifs r = none) ∧ ∀ i o, s.db.objects i = some o → o.waifPropdefs = none

inductive Access : World → World → Prop
  | new {s s' : World} {cls owner : ℤ} {r : WaifRef} :
      s.newWaif cls owner = .ok (r, s') → Access s s'
  | get {s s' : World} {r : WaifRef} {name : CStr} {progr : ℤ} {res : Except Err Var} :
      s.waifGetProp r name progr = .ok (res, s') → Access s s'
  | put {s s' : World} {r : WaifRef} {name : CStr} {val : Var} {progr : ℤ} {e : Err} :
      s.waifPutProp r name val progr = .ok (e, s') → Access s s'

theorem Blank.ok {s : World} (h : s.Blank) : s.Ok where
  made i o ho p hp := by
    rw [h.2 i o ho] at hp
    cases hp
  fits r w hw := by
    rw [h.1 r] at hw
    cases hw

theorem Ok.new {s s' : World} (h : s.Ok) {cls owner : ℤ} {r : WaifRef}
    (hn : s.newWaif cls owner = .ok (r, s')) : s'.Ok := by
  rw [newWaif, s.db.find_eq] at hn
  cases ho : s.db.objects cls with
  | none =>
    rw [ho] at hn
    cases hn
  | some o =>
    rw [ho] at hn
    obtain ⟨⟨wpd, db⟩, hc, hn⟩ := bind_ok.mp hn
    obtain ⟨-, rfl⟩ : _ = r ∧ _ = s' := by simpa using pure_ok.mp hn
    obtain ⟨hg, o', ho', hp⟩ := Db.classPropdefs_grown ho hc
    have hgr := h.grown hg
    refine ⟨hgr.made, fun r' w hw => ?_⟩
    by_cases hr : r'.ptr = s.next
    · simp only [addWaif, hr, if_true, Option.some.injEq] at hw
      subst hw
      exact Waif.fits_of_some rfl (hgr.made _ o' ho' wpd hp) (List.length_replicate ..)
    · simp only [addWaif, hr, if_false] at hw
      exact hgr.fits r' w hw

/-- Writing succeeds in storing a value that fits. -/
theorem Ok.write {s s' : World} (h : s.Ok) {r : WaifRef} {w : Waif} {name : CStr} {val : Var}
    {progr : ℤ} {e : Err} (hw : s.waifs r = some w)
    (hp : s.writeProp r w name val progr = .ok (e, s')) : s'.Ok := by
  rcases writeProp_cases hp with ⟨-, rfl⟩|⟨wpd, i, pval, n, w', -, -, -, hpd, hi, -, -, -, hst, rfl⟩
  · exact h
  · have hf := h.fits r w hw
    have hlt := (List.findIdx?_eq_some_iff_getElem.mp hi).1
    obtain ⟨w1, h1, -, -, hpd', hl', -⟩ := storeVal_spec (hf.count wpd hpd) hlt val
    obtain rfl := Except.ok.inj (hst.symm.trans h1)
    exact h.setWaif (Waif.fits_of_some (hpd'.trans hpd) (hf.made wpd hpd) hl')

theorem Access.ok {s s' : World} (hs : Access s s') (h : s.Ok) : s'.Ok := by
  cases hs with
  | new hn => exact h.new hn
  | get hg =>
    obtain ⟨su, hu, hg⟩ := bind_ok.mp hg
    obtain ⟨w, -, hg⟩ := bind_ok.mp hg
    obtain ⟨res, -, hg⟩ := bind_ok.mp hg
    obtain ⟨-, rfl⟩ : _ ∧ su = s' := by simpa using pure_ok.mp hg
    exact h.update hu
  | put hp =>
    obtain ⟨su, hu, hp⟩ := bind_ok.mp hp
    obtain ⟨w, hw, hp⟩ := bind_ok.mp hp
    exact (h.update hu).write (waif_ok.mp hw) hp

theorem reach_ok {s0 s : World} (h0 : s0.Blank) (hr : Relation.ReflTransGen Access s0 s) : s.Ok := by
  induction hr with
  | refl => exact h0.ok
  | tail _ hs ih => exact hs.ok ih

section Names
variable {name name' : CStr}

theorem prefixed_fold : (prefixed name').fold = (prefixed name).fold ↔ name'.fold = name.fold := by
  simp [CStr.fold, LambdaMoo.fold, prefixed]

theorem reserved_congr (h : name'.fold = name.fold) : reserved name' = reserved name := by
  rw [reserved, reserved, named, named, named, named, named, named, casecmp_congr h (by decide),
    casecmp_congr h (by decide), casecmp_congr h (by decide)]

theorem findIdx_congr (h : name'.fold = name.fold) (defs : List Propdef) :
    defs.findIdx? (·.named (prefixed name')) = defs.findIdx? (·.named (prefixed name)) := by
  congr 1
  funext p
  exact p.named_congr (prefixed_fold.mpr h)

theorem findIdx_ne (h : name'.fold ≠ name.fold) {defs : List Propdef} {i i' : ℕ}
    (hi : defs.findIdx? (·.named (prefixed name)) = some i)
    (hi' : defs.findIdx? (·.named (prefixed name')) = some i') : i' ≠ i := by
  rintro rfl
  obtain ⟨hlt, hn, -⟩ := List.findIdx?_eq_some_iff_getElem.mp hi
  obtain ⟨_, hn', -⟩ := List.findIdx?_eq_some_iff_getElem.mp hi'
  exact h (prefixed_fold.mp (((Propdef.named_iff _ _).mp hn').symm.trans
    ((Propdef.named_iff _ _).mp hn)))

/-- Where a property was found for writing, it is found for reading. -/
theorem classSlot_congr (h : name'.fold = name.fold) {db : Db} {cls : ℤ} {msg : String} {n : ℕ}
    {pval : Pval} (hs : classSlot db cls (prefixed name) msg = .ok (n, pval)) (msg' : String) :
    classSlot db cls (prefixed name') msg' = .ok (n, pval) := by
  rw [classSlot, findProperty_congr (prefixed_fold.mpr h)]
  obtain ⟨found, hf, hs⟩ := bind_ok.mp hs
  rw [hf]
  cases found with
  | none => cases hs
  | some handle =>
    cases handle with
    | builtIn b => cases hs
    | slot d m => exact hs

end Names

/-- Every property that has a place has one of its own, inside the array. -/
def DistinctSlots (defs : List Propdef) (w : Waif) : Prop :=
  ∀ name i place, findPropvalOffset defs w.map name = some (i, place) →
    (nMappableProps ≤ i ∨ w.map.propMapped i = true →
      ∃ a, place = some a ∧ a < w.propvals.length) ∧
    ∀ name' i' a, place = some a → findPropvalOffset defs w.map name' = some (i', some a) → i' = i

theorem findPropvalOffset_some {defs : List Propdef} {map : WaifMap} {name : CStr} {i : ℕ}
    {place : Option ℕ} (h : findPropvalOffset defs map name = some (i, place)) :
    i < defs.length ∧ place = propvalOffset map i := by
  rw [findPropvalOffset, Option.map_eq_some_iff] at h
  obtain ⟨j, hj, h⟩ := h
  obtain ⟨rfl, rfl⟩ : j = i ∧ propvalOffset map j = place := by simpa using h
  exact ⟨(List.findIdx?_eq_some_iff_getElem.mp hj).1, rfl⟩

theorem distinctSlots {defs : List Propdef} {w : Waif}
    (hl : w.propvals.length = propvalCount defs.length w.map) : DistinctSlots defs w := by
  intro name i place h
  obtain ⟨hi, rfl⟩ := findPropvalOffset_some h
  refine ⟨fun hs => ?_, fun name' i' a ha h' => ?_⟩
  · have hst : w.map.stored i = true := by
      rw [WaifMap.stored, Bool.or_eq_true, decide_eq_true_iff]
      exact hs
    exact ⟨w.map.place i, by rw [w.map.propvalOffset_eq, if_pos hst], place_lt hl hi hst⟩
  · obtain ⟨hi', ha'⟩ := findPropvalOffset_some h'
    rw [w.map.propvalOffset_eq] at ha ha'
    by_cases hs : w.map.stored i = true
    · by_cases hs' : w.map.stored i' = true
      · rw [if_pos hs] at ha
        rw [if_pos hs'] at ha'
        exact Nat.count_injective hs' hs ((Option.some.inj ha').symm.trans (Option.some.inj ha).symm)
      · rw [if_neg hs'] at ha'
        cases ha'
    · rw [if_neg hs] at ha
      cases ha

theorem waifGetProp_ok {s su s' : World} {r : WaifRef} {w : Waif} {name : CStr} {progr : ℤ}
    {res : Except Err Var} (hu : s.updateWaifPropdefs r = .ok su) (hw : su.waifs r = some w) :
    s.waifGetProp r name progr = .ok (res, s') ↔
      readProp su.db w name progr = .ok res ∧ s' = su := by
  have he : s.waifGetProp r name progr = (do return (← readProp su.db w name progr, su)) := by
    rw [waifGetProp, hu]
    show (su.waif r >>= _) = _
    rw [waif_ok.mpr hw]
    rfl
  rw [he]
  constructor
  · intro h
    obtain ⟨res', hr, h⟩ := bind_ok.mp h
    obtain ⟨rfl, rfl⟩ : res' = res ∧ su = s' := by simpa using pure_ok.mp h
    exact ⟨hr, rfl⟩
  · rintro ⟨hr, rfl⟩
    exact bind_ok.mpr ⟨res, hr, rfl⟩

/-- The world that a write starts from once the waif is up to date. -/
theorem waifPutProp_ok {s s' : World} {r : WaifRef} {name : CStr} {val : Var} {progr : ℤ} {e : Err}
    (h : s.waifPutProp r name val progr = .ok (e, s')) :
    ∃ su w, s.updateWaifPropdefs r = .ok su ∧ su.waifs r = some w ∧
      su.writeProp r w name val progr = .ok (e, s') := by
  obtain ⟨su, hu, h⟩ := bind_ok.mp h
  obtain ⟨w, hw, h⟩ := bind_ok.mp h
  exact ⟨su, w, hu, waif_ok.mp hw, h⟩

theorem get_after_put {s s' : World} (h : s.Ok) {r : WaifRef} {name name' : CStr} {val : Var}
    {progr : ℤ} (hp : s.waifPutProp r name val progr = .ok (.none, s')) (hc : val.type ≠ .clear)
    (hn : name'.fold = name.fold) (progr' : ℤ) :
    ∃ w' ok, s'.waifs r = some w' ∧ readable s'.db w' name' progr' = .ok ok ∧
      s'.waifGetProp r name' progr' = .ok (if ok then .ok val else .error .perm, s') := by
  obtain ⟨su, w, hu, hw, hp⟩ := waifPutProp_ok hp
  obtain ⟨he, -⟩|⟨wpd, i, pval, n, w', -, hres, hv, hpd, hi, hs, -, -, hst, rfl⟩ :=
    writeProp_cases hp
  · exact absurd rfl he
  · have hf := (h.update hu).fits r w hw
    have hlt := (List.findIdx?_eq_some_iff_getElem.mp hi).1
    obtain ⟨w1, h1, hcls, hown, hpd', hl', hval, -⟩ := storeVal_spec (hf.count wpd hpd) hlt val
    obtain rfl := Except.ok.inj (hst.symm.trans h1)
    obtain ⟨w0, hw0, hagain⟩ := update_again hu
    obtain rfl := Option.some.inj (hw.symm.trans hw0)
    have hself : (su.setWaif r w').waifs r = some w' := setWaif_self hw w'
    have hread : readable su.db w' name' progr'
        = .ok (waifPropertyAllows su.db w' pval progr' pval.perms.read) := by
      rw [readable, hcls, classSlot_congr hn hs]
      rfl
    refine ⟨w', _, hself, hread, ?_⟩
    rw [waifGetProp_ok (hagain w' hcls hpd' (.inr hv)) hself]
    refine ⟨?_, rfl⟩
    have := readProp_value progr' ((reserved_congr hn).trans hres) (hcls ▸ hv)
      (hpd'.trans hpd) ((findIdx_congr hn _).trans hi) (valueAt_eq hl' hlt) (hval ▸ hc) hread
    rwa [hval] at this

/-- A write changes what is read of no other property. -/
theorem get_other_after_put {s s' : World} (h : s.Ok) {r : WaifRef} {name name' : CStr} {val : Var}
    {progr : ℤ} {e : Err} (hp : s.waifPutProp r name val progr = .ok (e, s'))
    (hn : name'.fold ≠ name.fold) (progr' : ℤ) (res : Except Err Var) :
    (∃ s1, s.waifGetProp r name' progr' = .ok (res, s1)) ↔
      ∃ s2, s'.waifGetProp r name' progr' = .ok (res, s2) := by
  obtain ⟨su, w, hu, hw, hp⟩ := waifPutProp_ok hp
  obtain ⟨-, rfl⟩|⟨wpd, i, pval, n, w', -, -, hv, hpd, hi, -, -, -, hst, rfl⟩ := writeProp_cases hp
  · simp only [waifGetProp_ok hu hw, waifGetProp_ok (update_idem hu) hw]
  · have hf := (h.update hu).fits r w hw
    have hlt := (List.findIdx?_eq_some_iff_getElem.mp hi).1
    obtain ⟨w1, h1, hcls, hown, hpd', hl', -, hother⟩ := storeVal_spec (hf.count wpd hpd) hlt val
    obtain rfl := Except.ok.inj (hst.symm.trans h1)
    obtain ⟨w0, hw0, hagain⟩ := update_again hu
    obtain rfl := Option.some.inj (hw.symm.trans hw0)
    have hself : (su.setWaif r w').waifs r = some w' := setWaif_self hw w'
    have hsame : readProp su.db w' name' progr' = readProp su.db w name' progr' := by
      apply readProp_congr progr' hcls hown hpd'
      intro wpd' hwpd' j hj
      obtain rfl := Option.some.inj (hpd.symm.trans hwpd')
      have hjlt := (List.findIdx?_eq_some_iff_getElem.mp hj).1
      rw [valueAt_eq hl' hjlt, valueAt_eq (hf.count wpd hpd) hjlt, hother j (findIdx_ne hn hi hj)]
    simp only [waifGetProp_ok hu hw, waifGetProp_ok (hagain w' hcls hpd' (.inr hv)) hself,
      setWaif_db, hsame, exists_and_left]
    simp

theorem waif_implements_map {s0 s : World} (h0 : s0.Blank)
    (hr : Relation.ReflTransGen Access s0 s) {r : WaifRef} {w : Waif} (hw : s.waifs r = some w) :
    w.propvals.length = countWaifPropvals s.db w ∧
    (∀ wpd, w.propdefs = some wpd → DistinctSlots (s.db.wpds wpd) w) ∧
    (∀ name val progr s', s.waifPutProp r name val progr = .ok (.none, s') → val.type ≠ .clear →
      ∀ name' progr', name'.fold = name.fold → ∃ w' ok, s'.waifs r = some w' ∧
        readable s'.db w' name' progr' = .ok ok ∧
        s'.waifGetProp r name' progr' = .ok (if ok then .ok val else .error .perm, s')) ∧
    ∀ name val progr e s', s.waifPutProp r name val progr = .ok (e, s') →
      ∀ name' progr' res, name'.fold ≠ name.fold →
        ((∃ s1, s.waifGetProp r name' progr' = .ok (res, s1)) ↔
          ∃ s2, s'.waifGetProp r name' progr' = .ok (res, s2)) := by
  have hok := reach_ok h0 hr
  have hf := hok.fits r w hw
  refine ⟨?_, fun wpd hp => distinctSlots (hf.count wpd hp), ?_, ?_⟩
  · rw [countWaifPropvals]
    cases hp : w.propdefs with
    | none => rw [hf.null hp, List.length_nil]
    | some wpd => exact hf.count wpd hp
  · intro name val progr s' hp hc name' progr' hn
    exact get_after_put hok hp hc hn progr'
  · intro name val progr e s' hp name' progr' res hn
    exact get_other_after_put hok hp hn progr' res

def oneClass : World where
  db :=
    { objects := fun i => if i = 0 then some classObject else none
      numObjects := 1
      allUsers := []
      nextUid := 1
      wpds := fun _ => []
      nextWpd := 0
      vcTable := none
      bounded := fun i hi => by
        by_cases h : i = 0
        · omega
        · simp [h] at hi }
  waifs _ := none
  next := 4096
  bounded _ h := by cases h

theorem oneClass_blank : oneClass.Blank := by
  refine ⟨fun r => rfl, fun i o ho => ?_⟩
  by_cases h : i = 0
  · simp only [oneClass, h, if_true, Option.some.injEq] at ho
    rw [← ho]
    rfl
  · simp [oneClass, h] at ho

theorem waif_implements_map_one : ∃ s s' w, oneClass.newWaif 0 0 = .ok (⟨4096⟩, s) ∧
    s.waifs ⟨4096⟩ = some w ∧ w.propvals.length = countWaifPropvals s.db w ∧
    s.waifPutProp ⟨4096⟩ ⟨[97], by decide⟩ (.int 5) 0 = .ok (.none, s') ∧
    s'.waifGetProp ⟨4096⟩ ⟨[65], by decide⟩ 0 = .ok (.ok (.int 5), s') := by
  obtain ⟨s, s', hn, hp⟩ : ∃ s s', oneClass.newWaif 0 0 = .ok (⟨4096⟩, s) ∧
      s.waifPutProp ⟨4096⟩ ⟨[97], by decide⟩ (.int 5) 0 = .ok (.none, s') := ⟨_, _, rfl, rfl⟩
  obtain ⟨su, w0, hu, -⟩ := waifPutProp_ok hp
  obtain ⟨w, -, -, hw, -⟩ := updateWaifPropdefs_ok.mp hu
  have h := waif_implements_map oneClass_blank (.single (.new hn)) hw
  obtain ⟨w', ok, hw', hr, hg⟩ := h.2.2.1 ⟨[97], by decide⟩ (.int 5) 0 s' hp (by decide)
    ⟨[65], by decide⟩ 0 (by decide)
  refine ⟨s, s', w, hn, hw, h.1, hp, ?_⟩
  obtain rfl : s = _ := (congrArg Prod.snd (Except.ok.inj hn)).symm
  obtain rfl : s' = _ := (congrArg Prod.snd (Except.ok.inj hp)).symm
  obtain rfl : true = ok := by
    obtain rfl := Option.some.inj hw'
    exact Except.ok.inj hr
  exact hg

end World
end LambdaMoo.Database
