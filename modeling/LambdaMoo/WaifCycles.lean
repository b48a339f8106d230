import LambdaMoo.WaifGraph

/-!
# Waifs form no cycles

Every step that reads or writes waif properties keeps the waifs free of
cycles, so the search that a write starts with always ends. It refuses the
write where the waif is found, and also where the value has a float with the
bits of the waif's address.
-/

set_option autoImplicit false

namespace LambdaMoo.Database

open Relation

section Values

theorem storeVal_mem {w w' : Waif} {length i : ℕ} {val : Var}
    (hl : w.propvals.length = propvalCount length w.map)
    (h : World.storeVal w length i (propvalOffset w.map i) val = .ok w') :
    ∀ v ∈ w'.propvals, v ∈ w.propvals ∨ v = val ∨ v = .clear := by
  rw [w.map.propvalOffset_eq] at h
  by_cases hs : w.map.stored i = true
  · rw [if_pos hs, World.storeVal] at h
    split at h
    · obtain rfl := Except.ok.inj h
      intro v hv
      exact (List.mem_or_eq_of_mem_set hv).imp_right .inl
    · cases h
  · have hlt : i < nMappableProps := by
      by_contra hge
      exact hs (w.map.stored_of_ge (Nat.not_lt.mp hge))
    have hm : w.map.propMapped i = false := by
      rw [← w.map.stored_of_lt hlt]
      exact Bool.eq_false_iff.mpr hs
    rw [if_neg hs, World.storeVal,
      allocPropvalOffset_eq w.map hlt hm w.propvals length w rfl rfl hl] at h
    obtain rfl := pure_ok.mp h
    intro v hv
    rcases List.mem_or_eq_of_mem_set hv with hv|hv
    · rcases List.eq_or_mem_of_mem_insertIdx hv with hv|hv
      · exact .inr (.inr hv)
      · exact .inl hv
    · exact .inr (.inl hv)

end Values

namespace World

/-- Where a waif gets new values, only it holds anything new. -/
theorem setWaif_holds {s : World} {r : WaifRef} {w w' : Waif} {T : Var → Prop}
    (hw : s.waifs r = some w) (hsub : ∀ u ∈ w'.propvals, u ∈ w.propvals ∨ T u) {v u : Var}
    (h : (s.setWaif r w').Holds v u) : s.Holds v u ∨ (v = .waif r ∧ T u) := by
  cases h with
  | list hm => exact .inl (.list hm)
  | @waif x waif _ hx hm =>
    by_cases he : x = r
    · subst he
      rw [setWaif_self hw] at hx
      obtain rfl := Option.some.inj hx
      exact (hsub u hm).imp (fun h => .waif hw h) fun h => ⟨rfl, h⟩
    · rw [setWaif_ne s he] at hx
      exact .inl (.waif hx hm)

theorem clear_not_reaches (s : World) (r : WaifRef) : ¬s.Reaches .clear (.waif r) := by
  intro h
  rw [reaches_empty fun u hu => by cases hu] at h
  cases h

/-- What the writes of waif properties keep. -/
structure Sound (s : World) : Prop where
  ok : s.Ok
  closed : s.Closed
  noCycle : s.NoCycle

theorem Sound.setWaif {s : World} (h : s.Sound) {r : WaifRef} {w w' : Waif} {T : Var → Prop}
    (hw : s.waifs r = some w) (hf : w'.Fits s.db)
    (hsub : ∀ u ∈ w'.propvals, u ∈ w.propvals ∨ T u) (hlive : ∀ u, T u → s.Live u)
    (hT : ∀ u, T u → ¬s.Reaches u (.waif r)) : (s.setWaif r w').Sound where
  ok := h.ok.setWaif hf
  closed x waif hx y hy := by
    rw [setWaif_isSome]
    by_cases he : x = r
    · subst he
      rw [setWaif_self hw] at hx
      obtain rfl := Option.some.inj hx
      obtain ⟨u, hu, hyu⟩ := mem_leavesAll.mp hy
      rcases hsub u hu with hu|hu
      · exact h.closed x w hw y (mem_leavesAll.mpr ⟨u, hu, hyu⟩)
      · exact hlive u hu y hyu
    · rw [setWaif_ne s he] at hx
      exact h.closed x waif hx y hy
  noCycle := Acyclic.add_edges (R := s.Holds) (T := T) (fun _ _ hvu => setWaif_holds hw hsub hvu) hT
    h.noCycle

theorem Sound.grown {s : World} (h : s.Sound) {db' : Db} (hg : s.db.Grown db') :
    { s with db := db' }.Sound where
  ok := h.ok.grown hg
  closed := h.closed
  noCycle v hv := by
    have hle : World.Holds { s with db := db' } ≤ s.Holds := by
      intro v u hvu
      cases hvu with
      | list hm => exact .list hm
      | waif hw hm => exact .waif hw hm
    exact h.noCycle v (TransGen.mono hle v v hv)

theorem live_clear (s : World) : s.Live .clear := by
  intro w hw
  simp [leaves] at hw

theorem Sound.update {s s' : World} (h : s.Sound) {r : WaifRef}
    (hu : s.updateWaifPropdefs r = .ok s') : s'.Sound := by
  obtain ⟨w, db', w', hw, hup, rfl⟩ := updateWaifPropdefs_ok.mp hu
  obtain ⟨hg, hf, -, -⟩ := updateWaif_fits h.ok.made (h.ok.fits r w hw) hup
  refine (h.grown hg).setWaif (T := fun u => u = .clear) hw hf (updateWaif_mem hup) ?_ ?_
  · rintro u rfl
    exact live_clear _
  · rintro u rfl
    exact clear_not_reaches _ r

theorem Sound.write {s s' : World} (h : s.Sound) {r : WaifRef} {w : Waif} {name : CStr} {val : Var}
    {progr : ℤ} {e : Err} (hw : s.waifs r = some w)
    (hp : s.writeProp r w name val progr = .ok (e, s')) : s'.Sound := by
  have hok := h.ok.write hw hp
  rcases writeProp_cases hp with ⟨-, rfl⟩|⟨wpd, i, pval, n, w', -, -, -, hpd, -, -, -, href, hst, rfl⟩
  · exact h
  · have hlive := live_of_refersTo href
    obtain ⟨b, hb, hiff⟩ := refersTo_spec h.ok h.closed h.noCycle r hlive
    obtain rfl : b = false := Except.ok.inj (hb.symm.trans href)
    have hno : ¬s.Reaches val (.waif r) := fun hr => by simpa using hiff.mpr (.inl hr)
    have hf : w'.Fits s.db := hok.fits r w' (setWaif_self hw w')
    refine h.setWaif (T := fun u => u = val ∨ u = .clear) hw hf
      (storeVal_mem ((h.ok.fits r w hw).count wpd hpd) hst) ?_ ?_
    · rintro u (rfl|rfl)
      · exact hlive
      · exact live_clear s
    · rintro u (rfl|rfl)
      · exact hno
      · exact clear_not_reaches s r

theorem addWaif_isSome {s : World} {x : WaifRef} (h : (s.waifs x).isSome = true) (w : Waif) :
    ((s.addWaif w).waifs x).isSome = true := by
  by_cases hx : x.ptr = s.next <;> simp [addWaif, hx, h]

theorem Sound.new {s s' : World} (h : s.Sound) {cls owner : ℤ} {r : WaifRef}
    (hn : s.newWaif cls owner = .ok (r, s')) : s'.Sound := by
  have hok := h.ok.new hn
  rw [newWaif, s.db.find_eq] at hn
  cases ho : s.db.objects cls with
  | none =>
    rw [ho] at hn
    cases hn
  | some o =>
    rw [ho] at hn
    obtain ⟨⟨wpd, db⟩, hc, hn⟩ := bind_ok.mp hn
    obtain ⟨-, rfl⟩ : _ = r ∧ _ = s' := by simpa using pure_ok.mp hn
    refine ⟨hok, fun x waif hx y hy => ?_, ?_⟩
    · by_cases hp : x.ptr = s.next
      · simp only [addWaif, hp, if_true, Option.some.injEq] at hx
        subst hx
        obtain ⟨u, hu, hyu⟩ := mem_leavesAll.mp hy
        rw [List.eq_of_mem_replicate hu] at hyu
        simp [leaves] at hyu
      · simp only [addWaif, hp, if_false] at hx
        exact addWaif_isSome (s := { s with db := db }) (h.closed x waif hx y hy) _
    · refine Acyclic.add_edges (R := s.Holds) (r := .waif ⟨s.next⟩) (T := fun u => u = .clear)
        (fun v u hvu => ?_) ?_ h.noCycle
      · cases hvu with
        | list hm => exact .inl (.list hm)
        | @waif x waif _ hx hm =>
          by_cases hp : x.ptr = s.next
          · simp only [addWaif, hp, if_true, Option.some.injEq] at hx
            subst hx
            refine .inr ⟨?_, List.eq_of_mem_replicate hm⟩
            rw [← hp]
          · simp only [addWaif, hp, if_false] at hx
            exact .inl (.waif hx hm)
      · rintro u rfl
        exact clear_not_reaches s _

theorem Blank.sound {s : World} (h : s.Blank) : s.Sound where
  ok := h.ok
  closed r w hw := by
    rw [h.1 r] at hw
    cases hw
  noCycle := by
    have hlt : ∀ v u, TransGen s.Holds v u → sizeOf u < sizeOf v := by
      intro v u hvu
      induction hvu with
      | single hd =>
        cases hd with
        | list hm =>
          have := List.sizeOf_lt_of_mem hm
          simp only [Var.list.sizeOf_spec]
          omega
        | waif hw hm =>
          rw [h.1] at hw
          cases hw
      | tail _ hd ih =>
        cases hd with
        | list hm =>
          have := List.sizeOf_lt_of_mem hm
          simp only [Var.list.sizeOf_spec] at ih
          omega
        | waif hw hm =>
          rw [h.1] at hw
          cases hw
    intro v hv
    exact absurd (hlt v v hv) (lt_irrefl _)

theorem Access.sound {s s' : World} (hs : Access s s') (h : s.Sound) : s'.Sound := by
  cases hs with
  | new hn => exact h.new hn
  | get hg =>
    obtain ⟨su, hu, hg⟩ := bind_ok.mp hg
    obtain ⟨w, -, hg⟩ := bind_ok.mp hg
    obtain ⟨res, -, hg⟩ := bind_ok.mp hg
    obtain ⟨-, rfl⟩ : _ ∧ su = s' := by simpa using pure_ok.mp hg
    exact h.update hu
  | put hp =>
    obtain ⟨su, w, hu, hw, hp⟩ := waifPutProp_ok hp
    exact (h.update hu).write hw hp

theorem reach_sound {s0 s : World} (h0 : s0.Blank) (hr : ReflTransGen Access s0 s) : s.Sound := by
  induction hr with
  | refl => exact h0.sound
  | tail _ hs ih => exact hs.sound ih

/-- The property exists and the programmer may write it. -/
def Writable (s : World) (r : WaifRef) (name : CStr) (progr : ℤ) : Prop :=
  ∃ su w wpd i n pval, s.updateWaifPropdefs r = .ok su ∧ su.waifs r = some w ∧
    reserved name = false ∧ su.db.valid w.cls = true ∧ w.propdefs = some wpd ∧
    (su.db.wpds wpd).findIdx? (·.named (prefixed name)) = some i ∧
    classSlot su.db w.cls (prefixed name) "waif propdef update failed in waif_put_prop"
      = .ok (n, pval) ∧
    waifPropertyAllows su.db w pval progr pval.perms.write = true

/-- A write that is allowed stores the value unless the search says otherwise. -/
theorem writable_put {s : World} (h : s.Sound) {r : WaifRef} {name : CStr} {progr : ℤ}
    (hw : s.Writable r name progr) (val : Var) (hl : s.Live val) :
    ∃ su e s', s.updateWaifPropdefs r = .ok su ∧ s.waifPutProp r name val progr = .ok (e, s') ∧
      (e = .recmove ↔ su.Hit r val) := by
  obtain ⟨su, w, wpd, i, n, pval, hu, hsu, hres, hv, hpd, hi, hs, ha⟩ := hw
  have hsound := h.update hu
  have hlive : su.Live val := by
    obtain ⟨w0, db', w', hw0, -, rfl⟩ := updateWaifPropdefs_ok.mp hu
    intro x hx
    rw [setWaif_isSome]
    exact hl x hx
  obtain ⟨b, hb, hiff⟩ := refersTo_spec hsound.ok hsound.closed hsound.noCycle r hlive
  have hlt := (List.findIdx?_eq_some_iff_getElem.mp hi).1
  obtain ⟨w', hst, -⟩ := storeVal_spec ((hsound.ok.fits r w hsu).count wpd hpd) hlt val
  rw [reserved, Bool.or_eq_false_iff, Bool.or_eq_false_iff] at hres
  have hput : s.waifPutProp r name val progr
      = .ok (if b then (.recmove, su) else (.none, su.setWaif r w')) := by
    rw [waifPutProp, hu]
    show (su.waif r >>= _) = _
    rw [waif_ok.mpr hsu]
    show su.writeProp r w name val progr = _
    simp only [writeProp, hres.1.1, hres.1.2, hres.2, hv, hpd, hi, hs, ha, hb, hst, Db.deref,
      findPropvalOffset, Option.map_some, bind, Except.bind, Bool.or_self, Bool.false_eq_true,
      Bool.not_true, if_false]
    cases b <;> rfl
  cases b with
  | true => exact ⟨su, _, _, hu, hput, iff_of_true rfl (hiff.mp rfl)⟩
  | false => exact ⟨su, _, _, hu, hput, iff_of_false (by simp) fun hh => by simpa using hiff.mpr hh⟩

/-- Bringing a waif up to date changes only what it holds itself. -/
theorem update_holds {s su : World} {r : WaifRef} (hu : s.updateWaifPropdefs r = .ok su)
    {v u : Var} (hv : v ≠ .waif r) : su.Holds v u ↔ s.Holds v u := by
  obtain ⟨w, db', w', -, -, rfl⟩ := updateWaifPropdefs_ok.mp hu
  have hx : ∀ x : WaifRef, Var.waif x ≠ .waif r →
      ({ s with db := db' }.setWaif r w').waifs x = s.waifs x := by
    intro x hx
    exact setWaif_ne _ (fun he => hx (congrArg Var.waif he)) w'
  constructor <;> intro h
  · cases h with
    | list hm => exact .list hm
    | waif hw hm => exact .waif ((hx _ hv).symm.trans hw) hm
  · cases h with
    | list hm => exact .list hm
    | waif hw hm => exact .waif ((hx _ hv).trans hw) hm

theorem put_refused_iff {s0 s : World} (h0 : s0.Blank) (hr : ReflTransGen Access s0 s) :
    s.NoCycle ∧ (∀ v key, s.Live v → ∃ b, s.refersTo v key = .ok b) ∧
    ∀ r name val progr, s.Live val → s.Writable r name progr →
      ∃ e s', s.waifPutProp r name val progr = .ok (e, s') ∧
        ((e = .recmove ↔ s.Reaches val (.waif r)) ↔
          (s.Reaches val (.waif r) ∨ ¬s.Reaches val (.float ⟨r.ptr⟩))) := by
  have h := reach_sound h0 hr
  refine ⟨h.noCycle, fun v key hv => ?_, fun r name val progr hl hw => ?_⟩
  · obtain ⟨b, hb, -⟩ := refersTo_spec h.ok h.closed h.noCycle key hv
    exact ⟨b, hb⟩
  · obtain ⟨su, e, s', hu, hp, he⟩ := writable_put h hw val hl
    refine ⟨e, s', hp, ?_⟩
    have hwaif : su.Reaches val (.waif r) ↔ s.Reaches val (.waif r) :=
      ⟨Acyclic.reaches_mono fun _ _ hv => (update_holds hu hv).mp,
        Acyclic.reaches_mono fun _ _ hv => (update_holds hu hv).mpr⟩
    by_cases hreach : s.Reaches val (.waif r)
    · simp [he, Hit, hwaif, hreach]
    · have hfloat : su.Reaches val (.float ⟨r.ptr⟩) ↔ s.Reaches val (.float ⟨r.ptr⟩) :=
        ⟨fun hf => Acyclic.reaches_avoiding (fun _ _ hv => (update_holds hu hv).mp) hf
            (fun hh => hreach (hwaif.mp hh)),
          fun hf => Acyclic.reaches_avoiding (fun _ _ hv => (update_holds hu hv).mpr) hf hreach⟩
      simp [he, Hit, hwaif, hreach, hfloat]

/-- A float is not the waif at the address its bits spell. -/
theorem float_refused : ∃ s s', oneClass.Blank ∧ ReflTransGen Access oneClass s ∧
    s.Live (.list [.float ⟨4096⟩]) ∧ s.Writable ⟨4096⟩ ⟨[97], by decide⟩ 0 ∧
    s.waifPutProp ⟨4096⟩ ⟨[97], by decide⟩ (.list [.float ⟨4096⟩]) 0 = .ok (.recmove, s') ∧
    ¬s.Reaches (.list [.float ⟨4096⟩]) (.waif ⟨4096⟩) := by
  obtain ⟨s, s', hn, hp⟩ : ∃ s s', oneClass.newWaif 0 0 = .ok (⟨4096⟩, s) ∧
      s.waifPutProp ⟨4096⟩ ⟨[97], by decide⟩ (.list [.float ⟨4096⟩]) 0 = .ok (.recmove, s') :=
    ⟨_, _, rfl, rfl⟩
  refine ⟨s, s', oneClass_blank, .single (.new hn), fun w hw => ?_, ?_, hp, fun hr => ?_⟩
  · simp [leaves, leavesAll] at hw
  · obtain rfl : s = _ := (congrArg Prod.snd (Except.ok.inj hn)).symm
    exact ⟨_, _, _, _, _, _, rfl, rfl, by decide, rfl, rfl, rfl, rfl, rfl⟩
  · obtain ⟨x, hx, hxr⟩ := reaches_leaves s rfl hr
    rw [show leaves (.list [.float ⟨4096⟩]) = [.float ⟨4096⟩] from rfl, List.mem_singleton] at hx
    subst hx
    rw [reaches_empty fun u hu => by cases hu] at hxr
    cases hxr

theorem put_refused_iff_one : ∃ s s', oneClass.newWaif 0 0 = .ok (⟨4096⟩, s) ∧
    s.waifPutProp ⟨4096⟩ ⟨[97], by decide⟩ (.list [.waif ⟨4096⟩]) 0 = .ok (.recmove, s') ∧
    s.Reaches (.list [.waif ⟨4096⟩]) (.waif ⟨4096⟩) := by
  obtain ⟨s, hn⟩ : ∃ s, oneClass.newWaif 0 0 = .ok (⟨4096⟩, s) := ⟨_, rfl⟩
  have h := put_refused_iff oneClass_blank (.single (.new hn))
  have hr : s.Reaches (.list [.waif ⟨4096⟩]) (.waif ⟨4096⟩) := .single (.list (by simp))
  have hw : s.Writable ⟨4096⟩ ⟨[97], by decide⟩ 0 := by
    obtain rfl : s = _ := (congrArg Prod.snd (Except.ok.inj hn)).symm
    exact ⟨_, _, _, _, _, _, rfl, rfl, by decide, rfl, rfl, rfl, rfl, rfl⟩
  have hl : s.Live (.list [.waif ⟨4096⟩]) := by
    intro w hm
    rw [show leaves (.list [.waif ⟨4096⟩]) = [.waif ⟨4096⟩] from rfl, List.mem_singleton] at hm
    obtain rfl := Var.waif.inj hm
    obtain rfl : s = _ := (congrArg Prod.snd (Except.ok.inj hn)).symm
    rfl
  obtain ⟨e, s', hp, he⟩ := h.2.2 ⟨4096⟩ ⟨[97], by decide⟩ (.list [.waif ⟨4096⟩]) 0 hl hw
  obtain rfl : e = .recmove := (he.mpr (.inl hr)).mpr hr
  exact ⟨s, s', hn, hp, hr⟩

end World

end LambdaMoo.Database
