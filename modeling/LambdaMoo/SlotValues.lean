import LambdaMoo.Objects
import LambdaMoo.WaifLists

/-!
# The values in slots

A search for a property gives a slot that the object has, and the value of a
slot is found on the way up at the latest where the property is defined.
-/

set_option autoImplicit false

namespace LambdaMoo.Database
namespace Db

open Forest

theorem findSlot_bound {name : CStr} {k : ℕ} {chain : List (ℤ × Object)} {definer : ℤ} {n : ℕ}
    (h : findSlot name k chain = some (definer, n)) :
    k ≤ n ∧ n < k+(chain.map fun a => a.2.propdefs.length).sum := by
  induction chain generalizing k with
  | nil => cases h
  | cons a rest ih =>
    rw [findSlot] at h
    rw [List.map_cons, List.sum_cons]
    cases hi : a.2.propdefs.findIdx? (·.named name) with
    | some i =>
      have hlt : i < a.2.propdefs.length := (List.findIdx?_eq_some_iff_findIdx_eq.mp hi).1
      simp only [hi, Option.some.injEq, Prod.mk.injEq] at h
      omega
    | none =>
      simp only [hi] at h
      have := ih h
      omega

/-- A slot of a property defined elsewhere comes after those of the object's own. -/
theorem findSlot_inherited {name : CStr} {oid : ℤ} {o : Object} {rest : List (ℤ × Object)}
    {definer : ℤ} {n : ℕ} (h : findSlot name 0 ((oid, o)::rest) = some (definer, n))
    (hne : definer ≠ oid) : o.propdefs.length ≤ n := by
  rw [findSlot] at h
  cases hi : o.propdefs.findIdx? (·.named name) with
  | some i =>
    simp only [hi, Option.some.injEq, Prod.mk.injEq] at h
    exact absurd h.1.symm hne
  | none =>
    simp only [hi] at h
    have := (findSlot_bound h).1
    omega

section Value
variable {db : Db} (h : db.Sound)
include h

theorem slotValue_ok {i : ℤ} {chain : List (ℤ × Object)} (hl : db.Lineage i chain) {n : ℕ}
    (hn : n < (db.uids i).length) :
    ∃ v, slotValue n chain = .ok v ∧ v.type ≠ .clear := by
  induction hl generalizing n with
  | nil hnone =>
    rw [uids_none hnone] at hn
    simp at hn
  | @cons i o rest ho _ ih =>
    have hlt : n < o.propval.length := by
      rw [← uids_length ho]
      exact hn
    have hget : o.propval[n]? = some o.propval[n] := List.getElem?_eq_getElem hlt
    rw [slotValue, hget]
    by_cases hc : o.propval[n].var.type = .clear
    · have hge : o.propdefs.length ≤ n := by
        by_contra hown
        refine h.own i o ho o.propval[n] ?_ hc
        rw [List.mem_take_iff_getElem]
        exact ⟨n, by omega, rfl⟩
      rw [h.order i o ho, List.length_append, List.length_map] at hn
      obtain ⟨v, hv, hvc⟩ := ih (n := n-o.propdefs.length) (by omega)
      refine ⟨v, bind_ok.mpr ⟨_, rfl, ?_⟩, hvc⟩
      rw [if_pos hc]
      exact hv
    · refine ⟨_, bind_ok.mpr ⟨_, rfl, ?_⟩, hc⟩
      rw [if_neg hc]
      rfl

theorem findProperty_slot {i : ℤ} {name : CStr} {definer : ℤ} {n : ℕ}
    (hf : db.findProperty i name = .ok (some (.slot definer n))) :
    n < (db.uids i).length ∧ ∀ o, db.objects i = some o → definer ≠ i → o.propdefs.length ≤ n := by
  rw [findProperty] at hf
  cases hb : builtIn name with
  | some b => simp [hb] at hf
  | none =>
    simp only [hb] at hf
    obtain ⟨chain, hc, hl⟩ := ancestors_eq h.kin i
    rw [hc] at hf
    cases hs : findSlot name 0 chain with
    | none =>
      simp only [bind, Except.bind, hs] at hf
      cases hf
    | some x =>
      simp only [bind, Except.bind, hs] at hf
      have hx : x = (definer, n) := by
        have := Option.some.inj (pure_ok.mp hf)
        simp only [PropHandle.slot.injEq] at this
        exact Prod.ext this.1 this.2
      subst hx
      refine ⟨?_, fun o ho hne => ?_⟩
      · have hcount := hl.countProperties h.kin
        rw [h.order.countProperties h.kin, Except.ok.injEq] at hcount
        rw [hcount]
        have := (findSlot_bound hs).2
        omega
      · cases hl with
        | nil hn =>
          rw [hn] at ho
          cases ho
        | cons ho' _ =>
          obtain rfl := Option.some.inj (ho.symm.trans ho')
          exact findSlot_inherited hs hne

/-- A write to a slot, which clears none of a property that the object defines. -/
theorem setSlot_tends {i : ℤ} {o : Object} (ho : db.objects i = some o) {n : ℕ}
    (hn : n < (db.uids i).length) (v : Var)
    (hv : v.type ≠ .clear ∨ o.propdefs.length ≤ n) :
    ∃ db', db.setSlot i n v = .ok db' ∧ db.Tends db' ∧ db.Like db' ∧ db'.objects i = some { o with
      propval := o.propval.modify n fun pv => { pv with var := v } } := by
  rw [uids_length ho] at hn
  refine ⟨db.modify i fun o => { o with
    propval := o.propval.modify n fun pv => { pv with var := v } }, ?_, ?_,
    modify_like db i fun _ => rfl, modify_self ho _⟩
  · refine bind_ok.mpr ⟨o, object_ok ho, ?_⟩
    rw [if_pos hn]
    rfl
  · have hlike : db.Like (db.modify i fun o => { o with
        propval := o.propval.modify n fun pv => { pv with var := v } }) :=
      modify_like db i fun _ => rfl
    have huid : ∀ pvs : List Pval, (pvs.modify n fun pv => { pv with var := v }).map (·.uid) =
        pvs.map (·.uid) := by
      intro pvs
      apply List.ext_getElem?
      intro k
      rw [List.getElem?_map, List.getElem?_map, List.getElem?_modify]
      by_cases hk : n = k
      · simp only [if_pos hk, Option.map_eq_map, Option.map_map]
        rfl
      · simp [hk]
    have huids : ∀ j, (db.modify i fun o => { o with
        propval := o.propval.modify n fun pv => { pv with var := v } }).uids j = db.uids j := by
      intro j
      by_cases hj : j = i
      · subst hj
        rw [uids_some ho, uids_some (modify_self ho _), huid]
      · rw [uids, uids, modify_ne db hj]
    refine .ofSame h.kin ?_ ⟨rfl, rfl⟩ fun j => db.modify_field
      (fun o => (o.defs, o.waifPropdefs)) (fun o => { o with
        propval := o.propval.modify n fun pv => { pv with var := v } }) (fun _ => rfl) i j
    refine ⟨hlike.kin_eq ▸ h.kin, hlike.place_eq ▸ h.place, h.named.like hlike (le_refl _),
      fun j oj hj => ?_, fun j oj hj pv hpv => ?_⟩
    · obtain ⟨oj', hj', hk, -, hp⟩ := hlike.symm.some hj
      rw [huids, huids, ← hk, ← hp]
      exact h.order j oj' hj'
    · by_cases hji : j = i
      · subst hji
        obtain rfl := Option.some.inj (hj.symm.trans (modify_self ho _))
        obtain ⟨k, hk, rfl⟩ := List.mem_take_iff_getElem.mp hpv
        rw [List.getElem_modify]
        have hk' : k < o.propdefs.length ∧ k < o.propval.length := by
          simpa using hk
        by_cases hnk : n = k
        · rw [if_pos hnk]
          rcases hv with hv|hv
          · exact hv
          · omega
        · rw [if_neg hnk]
          refine h.own j o ho _ ?_
          rw [List.mem_take_iff_getElem]
          exact ⟨k, by omega, rfl⟩
      · rw [modify_ne db hji] at hj
        exact h.own j oj hj pv hpv

theorem quota_ok (player : ℤ) : ∃ q, db.quota player = .ok q ∧
    ∀ n num, q = some (n, num) → (db.objects player).isSome = true ∧
      n < (db.uids player).length := by
  rw [quota, valid, find_eq]
  cases hp : (db.objects player).isSome with
  | false => exact ⟨none, rfl, by simp⟩
  | true =>
    obtain ⟨found, hf, -⟩ := findProperty_eq h.kin player quotaName
    rw [hf]
    cases found with
    | none => exact ⟨none, rfl, by simp⟩
    | some handle =>
      cases handle with
      | builtIn b => exact ⟨none, rfl, by simp⟩
      | slot definer n =>
        obtain ⟨hn, -⟩ := findProperty_slot h hf
        obtain ⟨chain, hc, hl⟩ := ancestors_eq h.kin player
        obtain ⟨v, hv, -⟩ := slotValue_ok h hl hn
        simp only [bind, Except.bind, hc, hv]
        cases v with
        | int num =>
          refine ⟨some (n, num), rfl, fun n' num' he => ?_⟩
          obtain ⟨rfl, -⟩ := Prod.mk.inj (Option.some.inj he)
          exact ⟨trivial, hn⟩
        | _ => exact ⟨none, rfl, by simp⟩

theorem decrQuota_tends (player : ℤ) : ∃ r, db.decrQuota player = .ok r ∧ db.Tends r.2 ∧
    db.Like r.2 := by
  obtain ⟨q, hq, hbound⟩ := quota_ok h player
  rw [decrQuota, hq]
  cases q with
  | none => exact ⟨(true, db), rfl, .refl h, .refl db⟩
  | some x =>
    obtain ⟨n, num⟩ := x
    by_cases hz : num.toInt ≤ 0
    · exact ⟨(false, db), by simp only [bind, Except.bind, if_pos hz]; rfl, .refl h, .refl db⟩
    · obtain ⟨hs, hn⟩ := hbound n num rfl
      obtain ⟨o, ho⟩ := Option.isSome_iff_exists.mp hs
      obtain ⟨db', hdb', ht, hlike, -⟩ := setSlot_tends h ho hn (.int (num-1)) (.inl nofun)
      refine ⟨(true, db'), ?_, ht, hlike⟩
      simp only [bind, Except.bind, if_neg hz, hdb']
      rfl

theorem incrQuota_tends (player : ℤ) : ∃ db', db.incrQuota player = .ok db' ∧ db.Tends db' ∧
    db.Like db' := by
  obtain ⟨q, hq, hbound⟩ := quota_ok h player
  rw [incrQuota, hq]
  cases q with
  | none => exact ⟨db, rfl, .refl h, .refl db⟩
  | some x =>
    obtain ⟨n, num⟩ := x
    obtain ⟨hs, hn⟩ := hbound n num rfl
    obtain ⟨o, ho⟩ := Option.isSome_iff_exists.mp hs
    obtain ⟨db', hdb', ht, hlike, -⟩ := setSlot_tends h ho hn (.int (num+1)) (.inl nofun)
    exact ⟨db', hdb', ht, hlike⟩

/-- Clearing a property of an object does not clear one it defines. -/
theorem clearProp_tends (oid : ℤ) (pname : CStr) (progr : ℤ) :
    ∃ r, db.clearProp oid pname progr = .ok r ∧ db.Tends r.2 := by
  rw [clearProp, find_eq]
  cases ho : db.objects oid with
  | none => exact ⟨_, rfl, .refl h⟩
  | some o =>
    obtain ⟨found, hf, -⟩ := findProperty_eq h.kin oid pname
    dsimp only
    rw [hf]
    cases found with
    | none => exact ⟨(.fails .propnf, db), rfl, .refl h⟩
    | some handle =>
      cases handle with
      | builtIn b => exact ⟨(.fails .perm, db), rfl, .refl h⟩
      | slot definer n =>
        obtain ⟨hn, hdef⟩ := findProperty_slot h hf
        have hlt : n < o.propval.length := by
          rw [← uids_length ho]
          exact hn
        have hget : o.propval[n]? = some o.propval[n] := List.getElem?_eq_getElem hlt
        simp only [bind, Except.bind, hget, deref]
        by_cases hperm : (decide (progr ≠ o.propval[n].owner) && !db.isWizard progr) = true
        · exact ⟨(.fails .perm, db), if_pos hperm, .refl h⟩
        · rw [if_neg hperm]
          by_cases hd : definer = oid
          · exact ⟨(.fails .invarg, db), if_pos hd, .refl h⟩
          · obtain ⟨db', hdb', hs, -⟩ := setSlot_tends h ho hn .clear (.inr (hdef o ho hd))
            refine ⟨(.done zero, db'), ?_, hs⟩
            rw [if_neg hd, hdb']
            rfl

end Value

end Db
end LambdaMoo.Database
