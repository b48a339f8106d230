import LambdaMoo.Carry
import LambdaMoo.WaifProps

/-!
# Bringing a waif up to date

The values of a waif are carried from the list of properties it knew to the
one its class has now. Those of properties that are gone are freed, each once;
the others arrive, packed for the new list.
-/

set_option autoImplicit false

namespace LambdaMoo.Database

open Carry

/-- Frees the values of `n` old properties from `i` on; the values freed, and those left. -/
def takeVals (map : WaifMap) : ℕ → ℕ → List Var → Result (List Var × List Var)
  | 0, _, ov => .ok ([], ov)
  | n+1, i, ov => do
    let (v, ov) ← nextVal map i ov
    let (freed, ov) ← takeVals map n (i+1) ov
    return (if map.stored i then v::freed else freed, ov)

/-- The values for the new properties, and the values freed on the way. -/
def reconcile (map : WaifMap) :
    List Propdef → ℕ → List Propdef → List Var → Result (List Var × List Var)
  | [], i, a, ov => do
    let (freed, _) ← takeVals map a.length i ov
    return ([], freed)
  | b::bs, i, a, ov =>
    match a.findIdx? (·.name = b.name) with
    | none => do
      let (xfer, freed) ← reconcile map bs i a ov
      return (.clear::xfer, freed)
    | some k => do
      let (gone, ov) ← takeVals map k i ov
      let (v, ov) ← nextVal map (i+k) ov
      let (xfer, freed) ← reconcile map bs (i+k+1) (a.drop (k+1)) ov
      return (v::xfer, gone++freed)

/-- A waif for a new list of properties, and the values freed. -/
def refresh (db : Db) (w : Waif) (wpd : ℕ) : Result (Waif × List Var) :=
  if w.propvals.isEmpty then
    .ok ({ w with
      propdefs := some wpd
      propvals := List.replicate (propvalCount (db.wpds wpd).length w.map) .clear }, [])
  else do
    let old ← Db.deref w.propdefs
    let (xfer, freed) ← reconcile w.map (db.wpds wpd) 0 (db.wpds old) w.propvals
    return ({ w with propdefs := some wpd, propvals := ← packVals xfer, map := packMap xfer },
      freed)

/-- Brings a waif up to date with its class, with the values freed. -/
def updateWaifFreeing (db : Db) (w : Waif) : Result (Db × Waif × List Var) :=
  match db.find w.cls with
  | none =>
    let cnt := countWaifPropvals db w
    if cnt ≤ w.propvals.length then
      .ok (db, { w with propdefs := none, propvals := [] }, w.propvals.take cnt)
    else .error (.undefined "propvals out of bounds")
  | some o =>
    if w.propdefs = o.waifPropdefs then .ok (db, w, [])
    else do
      let (wpd, db) ← db.classPropdefs w.cls o
      let (w, freed) ← refresh db w wpd
      return (db, w, freed)

/-- The values are those of the list's properties: no other has a place. -/
structure Waif.Packs (w : Waif) (defs : List Propdef) : Prop where
  within : ∀ i, w.map.propMapped i = true → i < defs.length
  count : w.propvals.length = propvalCount defs.length w.map

/-- The stored values, in order, of the properties with names of one kind. -/
def Waif.held (w : Waif) (defs : List Propdef) (keep : Name → Bool) : List Var :=
  (defs.zipIdx.filter fun x => w.map.stored x.2 && keep x.1.name).map fun x => w.value x.2

section Freed

theorem takeVals_freeVals (map : WaifMap) (n i : ℕ) (ov : List Var) :
    (takeVals map n i ov).map Prod.snd = freeVals map n i ov := by
  induction n generalizing i ov with
  | zero => rfl
  | succ n ih =>
    rw [takeVals, freeVals]
    cases nextVal map i ov with
    | error e => rfl
    | ok x =>
      have := ih (i+1) x.2
      simp only [bind, Except.bind]
      rw [← this]
      cases takeVals map n (i+1) x.2 <;> rfl

theorem reconcile_transfer (map : WaifMap) (bs : List Propdef) (i : ℕ) (a : List Propdef)
    (ov : List Var) : (reconcile map bs i a ov).map Prod.fst = transfer map bs i a ov := by
  induction bs generalizing i a ov with
  | nil =>
    rw [reconcile, transfer, ← takeVals_freeVals]
    cases takeVals map a.length i ov <;> rfl
  | cons b bs ih =>
    rw [reconcile, transfer]
    cases a.findIdx? (·.name = b.name) with
    | none =>
      simp only [← ih]
      cases reconcile map bs i a ov <;> rfl
    | some k =>
      simp only [← takeVals_freeVals]
      cases takeVals map k i ov with
      | error e => rfl
      | ok x =>
        simp only [bind, Except.bind, Except.map]
        cases nextVal map (i+k) x.2 with
        | error e => rfl
        | ok y =>
          simp only [← ih]
          cases reconcile map bs (i+k+1) (a.drop (k+1)) y.2 <;> rfl

/-- What is freed apart, this is the waif that is brought up to date. -/
theorem refresh_remap (db : Db) (w : Waif) (wpd : ℕ) :
    (refresh db w wpd).map Prod.fst = remap db w wpd := by
  rw [refresh, remap]
  by_cases he : w.propvals.isEmpty = true
  · rw [if_pos he, if_pos he]
    rfl
  · rw [if_neg he, if_neg he]
    cases Db.deref w.propdefs with
    | error e => rfl
    | ok old =>
      simp only [bind, Except.bind, ← reconcile_transfer]
      cases reconcile w.map (db.wpds wpd) 0 (db.wpds old) w.propvals with
      | error e => rfl
      | ok x =>
        simp only [Except.map]
        cases packVals x.1 <;> rfl

theorem updateWaifFreeing_update {db : Db} {w : Waif} (hw : w.Fits db) :
    (updateWaifFreeing db w).map (fun x => (x.1, x.2.1)) = updateWaif db w := by
  rw [updateWaifFreeing, updateWaif]
  cases db.find w.cls with
  | none =>
    have hle : countWaifPropvals db w ≤ w.propvals.length := by
      rw [countWaifPropvals]
      cases hp : w.propdefs with
      | none => exact Nat.zero_le _
      | some wpd => exact le_of_eq (hw.count wpd hp).symm
    simp only [if_pos hle]
    rfl
  | some o =>
    by_cases hp : w.propdefs = o.waifPropdefs
    · simp only [if_pos hp]
      rfl
    · simp only [if_neg hp]
      cases db.classPropdefs w.cls o with
      | error e => rfl
      | ok x =>
        simp only [bind, Except.bind, ← refresh_remap]
        cases refresh x.2 w x.1 <;> rfl

end Freed

/-! ## The walk over both lists -/

section Walk

/-- Slots that agree with the map from a number on. -/
def Slotted (map : WaifMap) (i : ℕ) (a : List (Name × Option Var)) : Prop :=
  ∀ k x, a[k]? = some x → x.2.isSome = map.stored (i+k)

variable {map : WaifMap} {i : ℕ}

theorem Slotted.drop {a : List (Name × Option Var)} (h : Slotted map i a) (n : ℕ) :
    Slotted map (i+n) (a.drop n) := by
  intro k x hx
  rw [List.getElem?_drop] at hx
  rw [h _ x hx, Nat.add_assoc]

theorem Slotted.tail {x : Name × Option Var} {a : List (Name × Option Var)}
    (h : Slotted map i (x::a)) : Slotted map (i+1) a := h.drop 1

theorem nextVal_slot {x : Name × Option Var} {a : List (Name × Option Var)}
    (h : Slotted map i (x::a)) : nextVal map i ((x::a).filterMap (·.2))
      = .ok (x.2.getD .clear, a.filterMap (·.2)) := by
  have hx : x.2.isSome = map.stored i := h 0 x rfl
  cases hv : x.2 with
  | none =>
    have hm : map.stored i = false := by rw [← hx, hv]; rfl
    simp [nextVal, hm, hv]
  | some v =>
    have hm : map.stored i = true := by rw [← hx, hv]; rfl
    simp [nextVal, hm, hv]

theorem takeVals_slots {k : ℕ} {a : List (Name × Option Var)} (h : Slotted map i a)
    (hk : k ≤ a.length) : takeVals map k i (a.filterMap (·.2))
      = .ok ((a.take k).filterMap (·.2), (a.drop k).filterMap (·.2)) := by
  induction k generalizing i a with
  | zero => simp [takeVals]
  | succ k ih =>
    cases a with
    | nil => simp at hk
    | cons x a =>
      have hx : x.2.isSome = map.stored i := h 0 x rfl
      rw [takeVals, nextVal_slot h, ← hx]
      simp only [bind, Except.bind]
      rw [ih h.tail (by simpa using hk)]
      cases hv : x.2 with
      | none => simp [hv, pure, Except.pure]
      | some v => simp [hv, pure, Except.pure]

theorem findIdx_names {a : List Propdef} {s : List (Name × Option Var)}
    (h : s.map Prod.fst = a.map (·.name)) (b : Name) :
    a.findIdx? (·.name = b) = s.findIdx? (·.1 = b) := by
  have h1 := congrArg (List.findIdx? (decide <| · = b)) h
  rw [List.findIdx?_map, List.findIdx?_map] at h1
  exact h1.symm

/-- The walk carries the values by name. -/
theorem reconcile_carry (bs : List Propdef) {a : List Propdef} {s : List (Name × Option Var)}
    (hn : s.map Prod.fst = a.map (·.name)) (hs : Slotted map i s) :
    reconcile map bs i a (s.filterMap (·.2))
      = .ok ((carry (bs.map (·.name)) s).1.map (·.getD .clear), (carry (bs.map (·.name)) s).2) := by
  have hl : s.length = a.length := by simpa using congrArg List.length hn
  induction bs generalizing i a s with
  | nil =>
    rw [reconcile, takeVals_slots hs (le_of_eq hl.symm), ← hl, List.take_length]
    rfl
  | cons b bs ih =>
    rw [reconcile, List.map_cons, carry, findIdx_names hn]
    cases hf : s.findIdx? (·.1 = b.name) with
    | none =>
      simp only [ih hn hs hl, bind, Except.bind, pure, Except.pure]
      rfl
    | some k =>
      have hk : k < s.length := (List.findIdx?_eq_some_iff_findIdx_eq.mp hf).1
      have hd : s.drop k = s.get ⟨k, hk⟩::s.drop (k+1) := List.drop_eq_getElem_cons hk
      have hsk := hs.drop k
      rw [hd] at hsk
      have hn' : (s.drop (k+1)).map Prod.fst = (a.drop (k+1)).map (·.name) := by
        rw [List.map_drop, List.map_drop, hn]
      simp only [takeVals_slots hs (le_of_lt hk), bind, Except.bind]
      rw [hd, nextVal_slot hsk]
      simp only [ih hn' hsk.tail (by simp [hl]), pure, Except.pure]
      rw [List.getElem?_eq_getElem hk]
      rfl

end Walk

/-! ## Packing -/

section Packing
variable (xfer : List Var)

theorem propMapped_empty (i : ℕ) : WaifMap.empty.propMapped i = false := by
  rw [WaifMap.propMapped_eq, WaifMap.at']
  split <;> simp [WaifMap.empty]

theorem propMapped_packed {n : ℕ} (hn : n ≤ nMappableProps) (i : ℕ) :
    ((List.range n).foldl (fun map i =>
      if (xfer.getD i .clear).type = .clear then map else map.mapProp i) WaifMap.empty).propMapped i
      = decide (i < n ∧ (xfer.getD i .clear).type ≠ .clear) := by
  induction n with
  | zero => simp [propMapped_empty]
  | succ n ih =>
    rw [List.range_succ, List.foldl_append, List.foldl_cons, List.foldl_nil]
    by_cases hc : (xfer.getD n .clear).type = .clear
    · rw [if_pos hc, ih (by omega)]
      congr 1
      refine propext ⟨fun h => ⟨by omega, h.2⟩, fun h => ⟨?_, h.2⟩⟩
      rcases Nat.lt_succ_iff_lt_or_eq.mp h.1 with hi|rfl
      · exact hi
      · exact absurd hc h.2
    · rw [if_neg hc, WaifMap.propMapped_mapProp _ (show n < nMappableProps by omega),
        ih (by omega), Bool.eq_iff_iff, Bool.or_eq_true, decide_eq_true_iff, decide_eq_true_iff,
        decide_eq_true_iff]
      constructor
      · rintro (h|rfl)
        · exact ⟨by omega, h.2⟩
        · exact ⟨Nat.lt_succ_self _, hc⟩
      · intro h
        rcases Nat.lt_succ_iff_lt_or_eq.mp h.1 with hi|hi
        · exact .inl ⟨hi, h.2⟩
        · exact .inr hi

theorem propMapped_packMap (i : ℕ) : (packMap xfer).propMapped i
    = decide (i < min xfer.length nMappableProps ∧ (xfer.getD i .clear).type ≠ .clear) :=
  propMapped_packed xfer (Nat.min_le_right _ _) i

theorem stored_packMap {i : ℕ} {v : Var} (hi : xfer[i]? = some v) :
    (packMap xfer).stored i = true ↔ nMappableProps ≤ i ∨ v.type ≠ .clear := by
  have hlt : i < xfer.length := (List.getElem?_eq_some_iff.mp hi).1
  have hv : xfer.getD i .clear = v := by rw [List.getD_eq_getElem?_getD, hi]; rfl
  rw [WaifMap.stored, propMapped_packMap, hv, Bool.or_eq_true, decide_eq_true_iff,
    decide_eq_true_iff]
  by_cases hm : nMappableProps ≤ i
  · simp [hm]
  · simp [hm, hlt, Nat.not_le.mp hm]

theorem pack_stored : Packed.pack (fun k => (packMap xfer).stored k = true) xfer
    = (xfer.take nMappableProps).filter (fun v => decide (v.type ≠ .clear))
      ++xfer.drop nMappableProps := by
  have hx : Packed.pack (fun k => (packMap xfer).stored k = true) xfer
      = Packed.pack (fun k => (packMap xfer).stored k = true)
        (xfer.take nMappableProps++xfer.drop nMappableProps) := by
    rw [List.take_append_drop]
  rw [hx, Packed.pack_append, Packed.pack_eq_filter, Packed.pack_eq_self]
  · intro i hi
    rw [List.length_drop] at hi
    rw [List.length_take, Nat.min_eq_left (by omega)]
    exact WaifMap.stored_of_ge _ (Nat.le_add_right _ _)
  · intro i v hi
    have hlt := (List.getElem?_eq_some_iff.mp hi).1
    rw [List.length_take] at hlt
    rw [List.getElem?_take_of_lt (by omega)] at hi
    rw [stored_packMap xfer hi, decide_eq_true_iff, or_iff_right (by omega)]

theorem place_packed {map : WaifMap} {length : ℕ}
    (h : ∀ i, map.propMapped i = true → i < length) :
    propvalCount length map = map.place length := by
  rw [map.propvalCount_eq]
  rcases Nat.le_total nMappableProps length with hl|hl
  · rw [Nat.max_eq_left hl]
  · rw [Nat.max_eq_right hl]
    obtain ⟨d, hd⟩ := Nat.exists_eq_add_of_le hl
    rw [hd, WaifMap.place, WaifMap.place, Nat.count_add, Nat.add_eq_left,
      Nat.count_iff_forall_not]
    intro k hk hs
    rw [map.stored_of_lt (by omega)] at hs
    exact absurd (h _ hs) (by omega)

theorem packMap_within {i : ℕ} (h : (packMap xfer).propMapped i = true) : i < xfer.length := by
  rw [propMapped_packMap, decide_eq_true_iff] at h
  omega

/-- The cells that are there for the values are as many as the values. -/
theorem packVals_eq :
    packVals xfer = .ok (Packed.pack (fun k => (packMap xfer).stored k = true) xfer) := by
  have hc : propvalCount xfer.length (packMap xfer)
      = (Packed.pack (fun k => (packMap xfer).stored k = true) xfer).length := by
    rw [place_packed fun i => packMap_within xfer, Packed.length_pack]
    rfl
  rw [packVals, hc, ← pack_stored]
  simp

/-- The waif with values for a new list. -/
def repacked (w : Waif) (wpd : ℕ) : Waif :=
  { w with
    propdefs := some wpd
    propvals := Packed.pack (fun k => (packMap xfer).stored k = true) xfer
    map := packMap xfer }

theorem repacked_value (w : Waif) (wpd : ℕ) {i : ℕ} {v : Var} (hi : xfer[i]? = some v) :
    (repacked xfer w wpd).value i = v := by
  rw [Waif.value, repacked]
  dsimp only
  rw [Packed.entry_pack]
  by_cases hs : (packMap xfer).stored i = true
  · rw [if_pos hs, hi]
    rfl
  · rw [if_neg hs]
    rw [stored_packMap xfer hi, not_or, not_not] at hs
    have ht := hs.2
    cases v <;> simp [Var.type] at ht
    rfl

theorem repacked_packs (w : Waif) (wpd : ℕ) {defs : List Propdef} (hl : xfer.length = defs.length) :
    (repacked xfer w wpd).Packs defs where
  within i hi := hl ▸ packMap_within xfer hi
  count := by
    rw [← hl, repacked, place_packed fun i => packMap_within xfer, Packed.length_pack]
    rfl

end Packing

/-! ## The slots of a waif -/

namespace Waif
variable (w : Waif) (defs : List Propdef)

/-- Each property with what is stored for it. -/
def slots : List (Name × Option Var) :=
  defs.zipIdx.map fun x =>
    (x.1.name, Packed.entry (fun k => w.map.stored k = true) w.propvals x.2)

theorem slots_names : (w.slots defs).map Prod.fst = defs.map (·.name) := by
  calc (w.slots defs).map Prod.fst
      = (defs.zipIdx.map Prod.fst).map (·.name) := by
        rw [slots, List.map_map, List.map_map]
        rfl
    _ = defs.map (·.name) := by rw [List.zipIdx_map_fst]

theorem slots_get {i : ℕ} {p : Propdef} (h : defs[i]? = some p) : (w.slots defs)[i]?
    = some (p.name, Packed.entry (fun k => w.map.stored k = true) w.propvals i) := by
  simp [slots, List.getElem?_zipIdx, h]

theorem slots_values : (w.slots defs).filterMap (·.2) = (List.range defs.length).filterMap
    (Packed.entry (fun k => w.map.stored k = true) w.propvals) := by
  have hr : List.range defs.length = defs.zipIdx.map Prod.snd := by
    rw [List.zipIdx_map_snd, List.range_eq_range']
  rw [slots, hr, List.filterMap_map, List.filterMap_map]
  rfl

theorem value_lookup (hn : (defs.map (·.name)).Nodup) {i : ℕ} {p : Propdef}
    (hi : defs[i]? = some p) : (Carry.lookup p.name (w.slots defs)).getD .clear = w.value i := by
  have hx := w.slots_get defs hi
  have hm := List.mem_of_getElem? hx
  rw [Carry.lookup_mem (by rw [slots_names]; exact hn) hm]
  rfl

variable {w defs} (h : w.Packs defs)
include h

theorem Packs.length_eq : w.propvals.length = w.map.place defs.length := by
  rw [h.count, place_packed h.within]

theorem Packs.slots_propvals : (w.slots defs).filterMap (·.2) = w.propvals := by
  have hl : w.propvals.length = Nat.count (fun k => w.map.stored k = true) defs.length :=
    h.length_eq
  rw [slots_values, Packed.filterMap_entry (le_of_eq hl.symm), ← hl, List.take_length]

theorem Packs.entry_isSome {i : ℕ} (hi : i < defs.length) :
    (Packed.entry (fun k => w.map.stored k = true) w.propvals i).isSome = w.map.stored i := by
  rw [Packed.entry]
  by_cases hs : w.map.stored i = true
  · rw [if_pos hs, hs, List.getElem?_eq_getElem (Packed.entry_isSome h.length_eq hs hi)]
    rfl
  · rw [if_neg hs, Bool.eq_false_iff.mpr hs]
    rfl

theorem Packs.slotted : Slotted w.map 0 (w.slots defs) := by
  intro k x hx
  have hk : k < defs.length := by
    have := (List.getElem?_eq_some_iff.mp hx).1
    simpa [slots] using this
  rw [w.slots_get defs (List.getElem?_eq_getElem hk)] at hx
  rw [← Option.some.inj hx, Nat.zero_add]
  exact h.entry_isSome hk

theorem Packs.held_slots (keep : Name → Bool) :
    w.held defs keep = ((w.slots defs).filter (fun x => keep x.1)).filterMap (·.2) := by
  rw [held, slots, List.filter_map, List.filterMap_map, List.filterMap_filter,
    ← List.filterMap_eq_map, List.filterMap_filter]
  apply List.filterMap_congr
  rintro ⟨p, i⟩ hx
  have hi : i < defs.length := by simpa using (List.mem_zipIdx hx).2.1
  have he := h.entry_isSome hi
  cases hs : Packed.entry (fun k => w.map.stored k = true) w.propvals i with
  | none =>
    rw [hs] at he
    simp [← he, hs]
  | some v =>
    rw [hs] at he
    simp [← he, hs, value]

theorem Packs.held_all : w.held defs (fun _ => true) = w.propvals := by
  rw [h.held_slots, List.filter_true, h.slots_propvals]

theorem Packs.held_nil (he : w.propvals = []) (keep : Name → Bool) : w.held defs keep = [] := by
  have hs : (w.held defs keep).Sublist w.propvals := by
    rw [h.held_slots, ← h.slots_propvals]
    exact List.filter_sublist.filterMap _
  rw [he] at hs
  exact List.sublist_nil.mp hs

end Waif

section Refresh

theorem propMapped_ge {map : WaifMap} {i : ℕ} (hi : nMappableProps ≤ i) :
    map.propMapped i = false := by
  have : ¬i/32 < waifMapsz := by
    rw [Nat.not_lt, Nat.le_div_iff_mul_le (by decide)]
    exact hi
  rw [WaifMap.propMapped_eq, WaifMap.at', dif_neg this]
  simp

/-- A waif without values has nothing mapped. -/
theorem Waif.Packs.undifferentiated {w : Waif} {defs : List Propdef} (h : w.Packs defs)
    (he : w.propvals = []) (i : ℕ) : w.map.propMapped i = false := by
  by_cases hi : nMappableProps ≤ i
  · exact propMapped_ge hi
  · have hl := h.count
    rw [he, propvalCount, WaifMap.count_eq] at hl
    have hz : w.map.rank nMappableProps = 0 := by
      simp only [List.length_nil] at hl
      omega
    exact Bool.eq_false_iff.mpr (Nat.count_iff_forall_not.mp hz i (Nat.not_le.mp hi))

theorem Waif.Packs.lookup_nil {w : Waif} {defs : List Propdef} (h : w.Packs defs)
    (he : w.propvals = []) (n : Name) : lookup n (w.slots defs) = none := by
  cases hl : lookup n (w.slots defs) with
  | none => rfl
  | some v =>
    have hv : v ∈ w.propvals := by
      rw [← h.slots_propvals, List.mem_filterMap]
      obtain ⟨x, hx, hv⟩ := Option.bind_eq_some_iff.mp hl
      exact ⟨x, List.mem_of_find?_eq_some hx, hv⟩
    rw [he] at hv
    cases hv

theorem value_replicate {w : Waif} {n : ℕ} (h : w.propvals = List.replicate n .clear) (i : ℕ) :
    w.value i = .clear := by
  rw [Waif.value, h, Packed.entry]
  split
  · rw [List.getElem?_replicate]
    split <;> rfl
  · rfl

/-- The values of the new properties that come from the old storage, in the new order. -/
def arrived (w w' : Waif) (old new : List Propdef) : List Var :=
  (new.zipIdx.filter fun x => (lookup x.1.name (w.slots old)).isSome).map fun x => w'.value x.2

theorem arrived_eq {w w' : Waif} {old new : List Propdef} (hv : ∀ (j : ℕ) q, new[j]? = some q →
      w'.value j = (lookup q.name (w.slots old)).getD .clear) :
    arrived w w' old new
      = ((new.map (·.name)).map (lookup · (w.slots old))).reduceOption := by
  calc arrived w w' old new
      = new.zipIdx.filterMap fun x => lookup x.1.name (w.slots old) := by
        rw [arrived, ← List.filterMap_eq_map, List.filterMap_filter]
        apply List.filterMap_congr
        rintro ⟨q, j⟩ hx
        have hj := hv j q (by simpa [List.mem_zipIdx_iff_getElem?] using hx)
        cases hl : lookup q.name (w.slots old) with
        | none => simp
        | some v => simp [hj, hl]
    _ = new.filterMap fun q => lookup q.name (w.slots old) := by
        conv_rhs => rw [← List.zipIdx_map_fst (l := new) (i := 0), List.filterMap_map]
        rfl
    _ = _ := by
        rw [List.map_map, List.reduceOption, List.filterMap_map]
        rfl

section Lists
variable {db : Db} {w : Waif} {old wpd : ℕ} (hp : w.propdefs = some old)
  (h : w.Packs (db.wpds old)) (ho : ((db.wpds old).map (·.name)).Nodup)
  (hn : ((db.wpds wpd).map (·.name)).Nodup)
  (hs : SameOrder ((db.wpds old).map (·.name)) ((db.wpds wpd).map (·.name)))
include hp h ho hn hs

/-- Each new property has the value stored under its name, and the other values are freed. -/
theorem refresh_carry : ∃ w', refresh db w wpd
      = .ok (w', w.held (db.wpds old) (fun n => n ∉ (db.wpds wpd).map (·.name))) ∧
    w'.cls = w.cls ∧ w'.owner = w.owner ∧ w'.propdefs = some wpd ∧ w'.Packs (db.wpds wpd) ∧
    ∀ (j : ℕ) q, (db.wpds wpd)[j]? = some q →
      w'.value j = (lookup q.name (w.slots (db.wpds old))).getD .clear := by
  by_cases he : w.propvals = []
  · refine ⟨{ w with
      propdefs := some wpd
      propvals := List.replicate (propvalCount (db.wpds wpd).length w.map) .clear }, ?_, rfl, rfl,
      rfl, ⟨?_, List.length_replicate ..⟩, ?_⟩
    · rw [refresh, if_pos (by rw [he]; rfl), h.held_nil he]
    · intro i hi
      rw [h.undifferentiated he i] at hi
      cases hi
    · intro j q _
      rw [value_replicate rfl, h.lookup_nil he]
      rfl
  · have hr := reconcile_carry (db.wpds wpd) (w.slots_names (db.wpds old)) h.slotted
    rw [h.slots_propvals, carry_eq hn (by rw [w.slots_names]; exact ho)
      (by rw [w.slots_names]; exact hs), List.map_map, List.map_map] at hr
    refine ⟨repacked ((db.wpds wpd).map fun q => (lookup q.name (w.slots (db.wpds old))).getD .clear)
      w wpd, ?_, rfl, rfl, rfl, repacked_packs _ w wpd (List.length_map ..), ?_⟩
    · rw [refresh, if_neg (by simpa using he), hp]
      simp only [Db.deref, bind, Except.bind, hr, packVals_eq, h.held_slots, pure, Except.pure]
      rfl
    · intro j q hj
      refine repacked_value _ w wpd ?_
      rw [List.getElem?_map, hj]
      rfl

end Lists

/-- The values of a waif arrive in the storage for the list of properties of its class. -/
theorem update_preserves (db db' : Db) (w : Waif) (o : Object) (old wpd : ℕ)
    (hcls : db.find w.cls = some o) (hne : w.propdefs ≠ o.waifPropdefs)
    (hc : db.classPropdefs w.cls o = .ok (wpd, db')) (hp : w.propdefs = some old)
    (h : w.Packs (db'.wpds old)) (ho : ((db'.wpds old).map (·.name)).Nodup)
    (hn : ((db'.wpds wpd).map (·.name)).Nodup)
    (hs : SameOrder ((db'.wpds old).map (·.name)) ((db'.wpds wpd).map (·.name))) :
    ∃ w' freed, updateWaifFreeing db w = .ok (db', w', freed) ∧ w'.cls = w.cls ∧
      w'.owner = w.owner ∧ w'.propdefs = some wpd ∧ w'.Packs (db'.wpds wpd) ∧
      (∀ (i j : ℕ) p q, (db'.wpds old)[i]? = some p → (db'.wpds wpd)[j]? = some q →
        p.name = q.name → w'.value j = w.value i) ∧
      (∀ (j : ℕ) q, (db'.wpds wpd)[j]? = some q → (∀ p ∈ db'.wpds old, p.name ≠ q.name) →
        w'.value j = .clear) ∧
      freed = w.held (db'.wpds old) (fun n => n ∉ (db'.wpds wpd).map (·.name)) ∧
      (arrived w w' (db'.wpds old) (db'.wpds wpd)++freed).Perm w.propvals ∧
      w.propvals = w.held (db'.wpds old) (fun _ => true) ∧
      w'.propvals = w'.held (db'.wpds wpd) (fun _ => true) := by
  obtain ⟨w', hr, hcl, hown, hpd, hpack, hval⟩ := refresh_carry hp h ho hn hs
  refine ⟨w', _, ?_, hcl, hown, hpd, hpack, fun i j p q hi hj hpq => ?_, fun j q hj hq => ?_, rfl,
    ?_, h.held_all.symm, hpack.held_all.symm⟩
  · simp only [updateWaifFreeing, hcls, if_neg hne, hc, bind, Except.bind, hr, pure, Except.pure]
  · rw [hval j q hj, ← hpq, w.value_lookup _ ho hi]
  · rw [hval j q hj, lookup_absent]
    · rfl
    · rw [w.slots_names]
      intro hm
      obtain ⟨p, hpm, hpe⟩ := List.mem_map.mp hm
      exact hq p hpm hpe
  · have hcp := carry_perm ((db'.wpds wpd).map (·.name)) (w.slots (db'.wpds old))
    rw [carry_eq hn (by rw [w.slots_names]; exact ho) (by rw [w.slots_names]; exact hs),
      h.slots_propvals] at hcp
    rw [arrived_eq hval, h.held_slots]
    exact hcp

theorem staleClass_bounded (i : ℤ)
    (hi : (if i = 0 then some classObject else none).isSome = true) : 0 ≤ i ∧ i < (1 : ℕ) := by
  by_cases h : i = 0
  · omega
  · simp [h] at hi

/-- A class that defined two properties of its waifs, and has one of them left. -/
def staleClass : Db where
  objects i := if i = 0 then some classObject else none
  numObjects := 1
  allUsers := []
  nextUid := 2
  wpds i := if i = 0 then [⟨⟨1, ⟨[58, 98], noNul_b⟩⟩, 1⟩, ⟨⟨0, ⟨[58, 97], noNul_a⟩⟩, 0⟩] else []
  nextWpd := 1
  vcTable := none
  bounded := staleClass_bounded

def staleWaif : Waif := ⟨0, 0, some 0, [.int 1, .int 2], (WaifMap.empty.mapProp 0).mapProp 1⟩

theorem staleWaif_packs : staleWaif.Packs
    [⟨⟨1, ⟨[58, 98], noNul_b⟩⟩, 1⟩, ⟨⟨0, ⟨[58, 97], by decide⟩⟩, 0⟩] where
  within i hi := by
    rw [staleWaif, WaifMap.propMapped_mapProp _ (by decide), WaifMap.propMapped_mapProp _ (by decide),
      propMapped_empty, Bool.false_or, Bool.or_eq_true, decide_eq_true_iff, decide_eq_true_iff] at hi
    rw [List.length_cons, List.length_singleton]
    omega
  count := by decide

theorem update_preserves_stale : ∃ db' w', updateWaifFreeing staleClass staleWaif
    = .ok (db', w', [.int 1]) ∧ w'.value 0 = .int 2 := by
  obtain ⟨db', hc⟩ : ∃ db', staleClass.classPropdefs 0 classObject = .ok (1, db') := ⟨_, rfl⟩
  have hw : db' = _ := (congrArg Prod.snd (Except.ok.inj hc)).symm
  obtain ⟨w', freed, hu, -, -, -, -, hv, -, hf, -⟩ := update_preserves staleClass db' staleWaif _ 0 1
    rfl (by decide) hc rfl (by rw [hw]; exact staleWaif_packs) (by rw [hw]; decide)
    (by rw [hw]; decide) (by rw [hw]; decide)
  refine ⟨db', w', ?_, ?_⟩
  · rw [hu, hf, hw]
    rfl
  · rw [hv 1 0 _ _ (by rw [hw]; rfl) (by rw [hw]; rfl) rfl]
    rfl

end Refresh

end LambdaMoo.Database
