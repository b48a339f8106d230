import LambdaMoo.ChparentValues
import LambdaMoo.Builtins

/-!
# Looking up properties

The number of a slot is counted on the way up to the object that defines the
property, and counted down again on the way up to a value. Both ways meet the
slots made for one definition, and the second ends where the first did at the
latest.
-/

set_option autoImplicit false

namespace LambdaMoo.Database
namespace Db

open Forest

def getBiValue (db : Db) (oid : ℤ) (prop : BiProp) : Result Var := do
  let o ← db.object oid
  match prop with
  | .name => return .str o.name.str
  | .owner => return .obj (BitVec.ofInt 64 o.owner)
  | .programmer => return truth o.flags.programmer
  | .wizard => return truth o.flags.wizard
  | .r => return truth o.flags.read
  | .w => return truth o.flags.write
  | .f => return truth o.flags.fertile
  | .location => return .obj (BitVec.ofInt 64 o.place.up)
  | .contents => return .list ((← db.contents oid).map fun c => .obj (BitVec.ofInt 64 c))

/-- `db_find_property` with a place for the value. -/
def findPropertyValue (db : Db) (oid : ℤ) (name : CStr) : Result (Option (PropHandle×Var)) := do
  match ← db.findProperty oid name with
  | none => return none
  | some (.builtIn prop) => return some (.builtIn prop, ← db.getBiValue oid prop)
  | some (.slot definer n) =>
    return some (.slot definer n, ← slotValue n (← db.ancestors db.fuel oid))

/-- A definition on an object or above it that has a name, up to case. -/
structure DefinedAbove (db : Db) (oid : ℤ) (name : CStr) (definer : ℤ) (p : Propdef) : Prop where
  above : Below nothing db.kin oid definer
  defined : ∃ o, db.objects definer = some o ∧ p ∈ o.propdefs
  named : p.name.str.fold = name.fold

/-- The value of a definition for an object: that of the nearest object from there on which its
slot is not clear. -/
structure Inherits (db : Db) (oid : ℤ) (u : ℕ) (j : ℤ) (v : Var) : Prop where
  above : Below nothing db.kin oid j
  own : ∃ pv, db.slot j u = some pv ∧ pv.var = v ∧ v.type ≠ .clear
  between : ∀ k, Below nothing db.kin oid k → Below nothing db.kin k j → k ≠ j →
    ∃ pv, db.slot k u = some pv ∧ pv.var.type = .clear

section Value
variable {db : Db} (h : db.Sound)
include h

theorem below_antisymm {i j : ℤ} (hij : Below nothing db.kin i j) (hji : Below nothing db.kin j i) :
    i = j := by
  rcases Relation.ReflTransGen.cases_head hij with rfl | ⟨k, hik, hkj⟩
  · rfl
  · exact absurd (hkj.trans hji) (h.kin.irrefl hik)

/-- The count of slots on the way up to a value. -/
theorem slotValue_inherits {i : ℤ} {chain : List (ℤ×Object)} (hl : db.Lineage i chain) {n u : ℕ}
    (hu : (db.uids i)[n]? = some u) :
    ∃ j v, slotValue n chain = .ok v ∧ db.Inherits i u j v := by
  induction hl generalizing n with
  | nil hnone =>
    rw [uids_none hnone] at hu
    cases hu
  | @cons i o rest ho _ ih =>
    have hslot := h.slot_at hu
    rw [slots_some ho] at hslot
    have hlt : n < o.propval.length := by
      rw [← uids_length ho]
      exact (List.getElem?_eq_some_iff.mp hu).1
    rw [List.getElem?_eq_getElem hlt] at hslot
    rw [slotValue, List.getElem?_eq_getElem hlt]
    by_cases hc : o.propval[n].var.type = .clear
    · have hge : o.propdefs.length ≤ n := by
        by_contra hown
        refine h.own i o ho o.propval[n] ?_ hc
        rw [List.mem_take_iff_getElem]
        exact ⟨n, by omega, rfl⟩
      rw [h.order i o ho, List.getElem?_append_right (by rwa [List.length_map]), List.length_map] at hu
      obtain ⟨j, v, hv, hj⟩ := ih hu
      have hup : (db.objects o.kin.up).isSome = true := by
        by_contra hn
        rw [uids_none (by simpa using hn)] at hu
        cases hu
      have hab : Above nothing db.kin i o.kin.up := by
        refine above_iff.mpr ⟨o, ho, rfl, fun hn => ?_⟩
        rw [hn, nothing_free] at hup
        cases hup
      refine ⟨j, v, bind_ok.mpr ⟨_, rfl, ?_⟩, .head hab hj.above, hj.own, ?_⟩
      · rw [if_pos hc]
        exact hv
      · intro k hik hkj hne
        rcases Relation.ReflTransGen.cases_head hik with rfl | ⟨k', hik', hk'⟩
        · exact ⟨_, hslot.symm, hc⟩
        · rw [above_unique hik' hab] at hk'
          exact hj.between k hk' hkj hne
    · refine ⟨i, o.propval[n].var, bind_ok.mpr ⟨_, rfl, ?_⟩, .refl, ⟨_, hslot.symm, rfl, hc⟩, ?_⟩
      · rw [if_neg hc]
        rfl
      · intro k hik hki hne
        exact absurd (below_antisymm h hki hik) hne

/-- No value is looked for above the definer. -/
theorem Inherits.below_definer {i j : ℤ} {u : ℕ} {v : Var} (hi : db.Inherits i u j v) {definer : ℤ}
    (hd : db.Defines definer u) : Below nothing db.kin j definer := by
  obtain ⟨pv, hpv, -⟩ := hi.own
  have hj : (db.objects j).isSome = true := by
    by_contra hn
    rw [slot_none (by rw [uids_none (by simpa using hn)]; exact List.not_mem_nil)] at hpv
    cases hpv
  have hu : u ∈ db.uids j := by
    by_contra hn
    rw [slot_none hn] at hpv
    cases hpv
  exact (h.slot_isSome hj hd).mp hu

omit h in
theorem findSlot_mem {name : CStr} {k : ℕ} {chain : List (ℤ×Object)} {definer : ℤ} {n : ℕ}
    (hf : findSlot name k chain = some (definer, n)) : definer ∈ chain.map Prod.fst := by
  induction chain generalizing k with
  | nil => cases hf
  | cons a rest ih =>
    rw [findSlot] at hf
    split at hf
    · exact (Prod.mk.inj (Option.some.inj hf)).1 ▸ List.mem_cons_self
    · exact List.mem_cons_of_mem _ (ih hf)

/-- A property is found if one is defined above under the name, in the slot made for it, with the
value that the slot inherits. -/
theorem findPropertyValue_right {oid : ℤ} (hv : db.valid oid = true) {name : CStr}
    (hn : builtIn name = none) : ∃ found, db.findPropertyValue oid name = .ok found ∧
      ((∃ hdl v, found = some (hdl, v)) ↔ ∃ definer p, db.DefinedAbove oid name definer p) ∧
      ∀ hdl v, found = some (hdl, v) → ∃ definer n p j, hdl = .slot definer n ∧
        db.DefinedAbove oid name definer p ∧ (∃ pv, (db.slots oid)[n]? = some pv ∧ pv.uid = p.uid) ∧
        db.Inherits oid p.uid j v ∧ Below nothing db.kin j definer := by
  obtain ⟨chain, hc, hl⟩ := ancestors_eq h.kin oid
  rw [valid, find_eq] at hv
  rw [findPropertyValue, findProperty, hn]
  simp only [hc]
  cases hs : findSlot name 0 chain with
  | none =>
    have hno := findSlot_none hs
    refine ⟨none, bind_ok.mpr ⟨none, bind_ok.mpr ⟨chain, rfl, by rw [hs]; rfl⟩, rfl⟩, ?_, ?_⟩
    · apply iff_of_false
      · rintro ⟨hdl, v, hx⟩
        cases hx
      · rintro ⟨definer, p, hb, ⟨o, ho, hp⟩, hname⟩
        exact hno (definer, o) ((hl.mem h.kin).mpr ⟨ho, hv, hb⟩) p hp hname
    · intro hdl v hx
      cases hx
  | some x =>
    obtain ⟨definer, n⟩ := x
    obtain ⟨o, p, ho, hp, hnamed, hu⟩ := h.findSlot_uid hl hs
    obtain ⟨j, v, hval, hj⟩ := slotValue_inherits h hl hu
    obtain ⟨⟨a, oa⟩, ha, rfl⟩ := List.mem_map.mp (findSlot_mem hs)
    have hdef : db.DefinedAbove oid name a p :=
      ⟨((hl.mem h.kin).mp ha).2.2, ⟨o, ho, hp⟩, (p.named_iff name).mp hnamed⟩
    refine ⟨some (.slot a n, v), bind_ok.mpr ⟨some (.slot a n), ?_, ?_⟩, ?_, ?_⟩
    · exact bind_ok.mpr ⟨chain, rfl, by rw [hs]; rfl⟩
    · exact bind_ok.mpr ⟨chain, rfl, bind_ok.mpr ⟨v, hval, rfl⟩⟩
    · exact iff_of_true ⟨_, _, rfl⟩ ⟨a, p, hdef⟩
    · intro hdl v' hx
      obtain ⟨rfl, rfl⟩ := Prod.mk.inj (Option.some.inj hx)
      refine ⟨a, n, p, j, rfl, hdef, ?_, hj, hj.below_definer h ⟨o, ho, p, hp, rfl⟩⟩
      rw [uids_slots, List.getElem?_map] at hu
      exact Option.map_eq_some_iff.mp hu

end Value

/-- The slots for `color` on 5, 4 and 2 are clear, and 0 defines it. -/
theorem findPropertyValue_right_family : ∃ p j, family.findPropertyValue 5 ⟨ascii "COLOR", by decide⟩
      = .ok (some (.slot 0 2, .int 10)) ∧
    family.DefinedAbove 5 ⟨ascii "COLOR", by decide⟩ 0 p ∧
    (∃ pv, (family.slots 5)[2]? = some pv ∧ pv.uid = p.uid ∧ pv.var = .clear) ∧
    family.Inherits 5 p.uid j (.int 10) ∧ Below nothing family.kin j 0 := by
  have hok : family.findPropertyValue 5 ⟨ascii "COLOR", by decide⟩
      = .ok (some (.slot 0 2, .int 10)) := rfl
  obtain ⟨found, hf, -, hright⟩ := findPropertyValue_right family_sound (show family.valid 5 = true from rfl)
    (show builtIn ⟨ascii "COLOR", by decide⟩ = none by decide)
  obtain rfl := Except.ok.inj (hok.symm.trans hf)
  obtain ⟨definer, n, p, j, hslot, hdef, ⟨pv, hpv, hu⟩, hinherits, hbelow⟩ := hright _ _ rfl
  obtain ⟨rfl, rfl⟩ : 0 = definer ∧ 2 = n := by simpa using hslot
  have hclear : (family.slots 5)[2]? = some ⟨.clear, 1, readable, 0⟩ := rfl
  obtain rfl := Option.some.inj (hclear.symm.trans hpv)
  exact ⟨p, j, hok, hdef, ⟨_, hpv, hu, rfl⟩, hinherits, hbelow⟩

end Db
end LambdaMoo.Database
