import LambdaMoo.PropertyOps

/-!
# Renaming properties

A new name changes nothing of the slots; the lists of waif properties that
the object and its descendants point to follow.
-/

set_option autoImplicit false

namespace LambdaMoo.Database

def Object.unwired (o : Object) : Object := { o with waifPropdefs := none }

namespace Db

open Forest

/-- The same objects but for their lists of waif properties. -/
structure Rewired (db db' : Db) : Prop where
  size : db'.numObjects = db.numObjects
  uid : db'.nextUid = db.nextUid
  table : db'.vcTable = db.vcTable
  same : ∀ i, (db'.objects i).map Object.unwired = (db.objects i).map Object.unwired

namespace Rewired
variable {db db' : Db}

theorem refl (db : Db) : db.Rewired db := ⟨rfl, rfl, rfl, fun _ => rfl⟩

theorem trans {db'' : Db} (h : db.Rewired db') (h' : db'.Rewired db'') : db.Rewired db'' :=
  ⟨h'.size.trans h.size, h'.uid.trans h.uid, h'.table.trans h.table,
    fun i => (h'.same i).trans (h.same i)⟩

theorem field (h : db.Rewired db') {β : Type} (g : Object → β)
    (hg : ∀ o, g o.unwired = g o) (i : ℤ) : (db'.objects i).map g = (db.objects i).map g := by
  have := congrArg (Option.map g) (h.same i)
  rw [Option.map_map, Option.map_map] at this
  have hc : g ∘ Object.unwired = g := funext hg
  rwa [hc] at this

theorem like (h : db.Rewired db') : db.Like db' := ⟨h.size, h.field _ fun _ => rfl⟩

theorem sound (h : db.Rewired db') (hs : db.Sound) : db'.Sound :=
  hs.face (h.field _ fun _ => rfl) (h.like.kin_eq ▸ hs.kin) (h.like.place_eq ▸ hs.place)
    (le_of_eq h.uid.symm)

theorem forget (db : Db) (i : ℤ) :
    db.Rewired (db.modify i fun o => { o with waifPropdefs := none }) :=
  ⟨rfl, rfl, rfl, fun j => db.modify_field Object.unwired
    (fun o => { o with waifPropdefs := none }) (fun _ => rfl) i j⟩

theorem foldlM {α : Type} {step : Db → α → Result Db}
    (hstep : ∀ db x db', step db x = .ok db' → db.Rewired db') {xs : List α} {db db' : Db}
    (h : xs.foldlM step db = .ok db') : db.Rewired db' := by
  induction xs generalizing db with
  | nil =>
    obtain rfl := pure_ok.mp h
    exact refl db
  | cons x xs ih =>
    rw [List.foldlM_cons] at h
    obtain ⟨db1, h1, h2⟩ := bind_ok.mp h
    exact (hstep db x db1 h1).trans (ih h2)

end Rewired

theorem waifRenamePropdef_rewired {db db' : Db} {i : ℤ} {w : ℕ} {old new : Name}
    (h : db.waifRenamePropdef i w old new = .ok db') : db.Rewired db' := by
  rw [waifRenamePropdef] at h
  split at h
  · split at h
    · obtain rfl := Except.ok.inj h
      exact ⟨rfl, rfl, rfl, fun _ => rfl⟩
    · cases h
  · obtain rfl := Except.ok.inj h
    exact .forget db i

theorem renamePropRecursively_rewired {db db' : Db} {root : ℤ} {old new : Name}
    (h : db.renamePropRecursively root old new = .ok db') : db.Rewired db' := by
  rw [renamePropRecursively] at h
  obtain ⟨ds, -, h⟩ := bind_ok.mp h
  refine Rewired.foldlM (fun db d db' h => ?_) h
  obtain ⟨o, -, h⟩ := bind_ok.mp h
  split at h
  · exact waifRenamePropdef_rewired h
  · obtain rfl := pure_ok.mp h
    exact .refl db

/-- How a new name comes about. -/
theorem renamePropdef_cases {db : Db} {oid : ℤ} {o : Object} (ho : db.objects oid = some o)
    {old : CStr} {new : Name} {r : Bool × Db} (h : db.renamePropdef oid old new = .ok r) :
    r = (false, db) ∨ ∃ i p db1, o.propdefs[i]? = some p ∧ p.name.str.fold = old.fold ∧
      (old.fold = new.str.fold ∨ db.findProperty oid new.str = .ok none ∧
        db.definedAtOrBelow new.str oid = .ok false) ∧
      db.renamePropRecursively oid p.name new = .ok db1 ∧
      r = (true, db1.modify oid fun o => { o with
        propdefs := o.propdefs.modify i fun p => { p with name := new } }) := by
  rw [renamePropdef] at h
  obtain ⟨o', ho', h⟩ := bind_ok.mp h
  rw [object_ok ho] at ho'
  obtain rfl := Except.ok.inj ho'
  cases hf : o.propdefs.findIdx? (·.named old) with
  | none =>
    simp only [hf] at h
    exact .inl (pure_ok.mp h).symm
  | some i =>
    simp only [hf] at h
    obtain ⟨hi, hn⟩ := List.findIdx?_eq_some_iff_getElem.mp hf
    have hp : o.propdefs[i]? = some o.propdefs[i] := List.getElem?_eq_getElem hi
    have hold : o.propdefs[i].name.str.fold = old.fold := (Propdef.named_iff _ _).mp hn.1
    split at h
    · obtain ⟨found, hfound, h⟩ := bind_ok.mp h
      split at h
      · exact .inl (pure_ok.mp h).symm
      · next hnone =>
        obtain ⟨b, hb, h⟩ := bind_ok.mp h
        split at h
        · exact .inl (pure_ok.mp h).symm
        · next hfalse =>
          rw [hp] at h
          obtain ⟨p, hp', h⟩ := bind_ok.mp h
          obtain rfl := Except.ok.inj hp'
          obtain ⟨db1, hdb1, h⟩ := bind_ok.mp h
          refine .inr ⟨i, _, db1, hp, hold, .inr ⟨?_, ?_⟩, hdb1, (pure_ok.mp h).symm⟩
          · rw [hfound, Option.not_isSome_iff_eq_none.mp hnone]
          · rw [hb, Bool.eq_false_of_not_eq_true hfalse]
    · next hcase =>
      rw [hp] at h
      obtain ⟨p, hp', h⟩ := bind_ok.mp h
      obtain rfl := Except.ok.inj hp'
      obtain ⟨db1, hdb1, h⟩ := bind_ok.mp h
      refine .inr ⟨i, _, db1, hp, hold, .inl ?_, hdb1, (pure_ok.mp h).symm⟩
      exact (CStr.casecmp_iff _ _).mp (not_not.mp hcase)

section Rename
variable {db : Db} {oid : ℤ} {i : ℕ} {new : Name}

theorem modifyName_redefined : db.Redefined (db.modify oid fun o => { o with
    propdefs := o.propdefs.modify i fun p => { p with name := new } }) oid := by
  refine ⟨rfl, fun j hj => modify_ne db hj _, fun o' ho' => ?_⟩
  exact ⟨_, modify_self ho' _, rfl, rfl, rfl⟩

theorem mem_modifyName {ps : List Propdef} {p q : Propdef} (hp : ps[i]? = some p)
    (hq : q ∈ ps.modify i fun p => { p with name := new }) :
    q = { p with name := new } ∨ ∃ j, j ≠ i ∧ ps[j]? = some q := by
  obtain ⟨j, hj⟩ := List.getElem?_of_mem hq
  rw [List.getElem?_modify] at hj
  by_cases hij : i = j
  · subst hij
    simp only [hp, if_true, Option.map_eq_map, Option.map_some] at hj
    exact .inl (Option.some.inj hj).symm
  · simp only [if_neg hij] at hj
    exact .inr ⟨j, Ne.symm hij, by simpa using hj⟩

theorem modifyName_uids (ps : List Propdef) :
    (ps.modify i fun p => { p with name := new }).map (·.uid) = ps.map (·.uid) := by
  apply List.ext_getElem?
  intro j
  rw [List.getElem?_map, List.getElem?_map, List.getElem?_modify]
  by_cases hij : i = j
  · simp only [if_pos hij, Option.map_eq_map, Option.map_map]
    rfl
  · simp [hij]

variable (h : db.Sound) {o : Object} (ho : db.objects oid = some o) {p : Propdef}
  (hp : o.propdefs[i]? = some p)
include h ho hp

/-- A definition with a name that is free above and below, or with its old name in other case. -/
theorem modifyName_sound
    (hfree : p.name.str.fold = new.str.fold ∨ ∀ j oj, db.objects j = some oj →
      Below nothing db.kin oid j ∨ Below nothing db.kin j oid → ∀ q ∈ oj.propdefs,
        q.name.str.fold ≠ new.str.fold) :
    (db.modify oid fun o => { o with
      propdefs := o.propdefs.modify i fun p => { p with name := new } }).Sound := by
  have hpm : p ∈ o.propdefs := List.mem_of_getElem? hp
  -- a name in the way of the new one is in the way of the old one, or there is none
  have hway : ∀ {j oj q}, db.objects j = some oj →
      Below nothing db.kin oid j ∨ Below nothing db.kin j oid → q ∈ oj.propdefs →
      q.name.str.fold = new.str.fold → j = oid ∧ q = p := by
    intro j oj q hoj hb hq he
    rcases hfree with hsame|hfree
    · rcases hb with hb|hb
      · obtain ⟨hj, hq⟩ := h.named.apart oid j o oj ho hoj hb p hpm q hq (hsame.trans he.symm)
        exact ⟨hj.symm, hq.symm⟩
      · exact h.named.apart j oid oj o hoj ho hb q hq p hpm (he.trans hsame.symm)
    · exact absurd he (hfree j oj hoj hb q hq)
  have hother : ∀ {j q}, j ≠ i → o.propdefs[j]? = some q → q ≠ p := by
    intro j q hj hq he
    have hn := h.named.once oid o ho
    apply hj
    have hju : (o.propdefs.map (·.uid))[j]? = some q.uid := by simp [hq]
    have hiu : (o.propdefs.map (·.uid))[i]? = some q.uid := by simp [hp, he]
    obtain ⟨hjl, hju⟩ := List.getElem?_eq_some_iff.mp hju
    obtain ⟨hil, hiu⟩ := List.getElem?_eq_some_iff.mp hiu
    exact (List.Nodup.getElem_inj_iff hn).mp (hju.trans hiu.symm)
  refine modifyName_redefined.sound_renamed ho h ?_ (modify_self ho _) (modifyName_uids _)
  refine modifyName_redefined.named ho h.named (le_refl _) (modify_self ho _)
    (fun j oj hj hoj hnear q hq q' hq' he => ?_) (fun q hq q' hq' he => ?_) (fun q hq => ?_) ?_
  · rcases mem_modifyName hp hq with rfl|⟨k, -, hk⟩
    · exact hj (hway hoj hnear.symm hq' he.symm).1
    · rcases hnear with hb|hb
      · exact hj (h.named.apart j oid oj o hoj ho hb q' hq' q (List.mem_of_getElem? hk) he.symm).1
      · exact hj (h.named.apart oid j o oj ho hoj hb q (List.mem_of_getElem? hk) q' hq' he).1.symm
  · rcases mem_modifyName hp hq with rfl|⟨k, hki, hk⟩
    · rcases mem_modifyName hp hq' with rfl|⟨k', hk'i, hk'⟩
      · rfl
      · exact absurd (hway ho (.inl .refl) (List.mem_of_getElem? hk') he.symm).2 (hother hk'i hk')
    · rcases mem_modifyName hp hq' with rfl|⟨k', hk'i, hk'⟩
      · exact absurd (hway ho (.inl .refl) (List.mem_of_getElem? hk) he).2 (hother hki hk)
      · exact (h.named.apart oid oid o o ho ho .refl q (List.mem_of_getElem? hk) q'
          (List.mem_of_getElem? hk') he).2
  · have hu : q.uid ∈ o.propdefs.map (·.uid) := by
      have := List.mem_map_of_mem (f := fun p : Propdef => p.uid) hq
      rwa [modifyName_uids] at this
    obtain ⟨q', hq', he⟩ := List.mem_map.mp hu
    exact ⟨he ▸ h.named.made oid o ho q' hq', .inl hu⟩
  · rw [modifyName_uids]
    exact h.named.once oid o ho

omit hp in
theorem renamePropdef_sound {old : CStr} {r : Bool × Db} (hr : db.renamePropdef oid old new = .ok r) :
    r.2.Sound := by
  rcases renamePropdef_cases ho hr with rfl|⟨i, p, db1, hp, hold, hfree, hdb1, rfl⟩
  · exact h
  · have hw := renamePropRecursively_rewired hdb1
    obtain ⟨o1, ho1, -, -, hpd⟩ := hw.like.some ho
    refine modifyName_sound (hw.sound h) ho1 (hpd ▸ hp) ?_
    rcases hfree with hfree|⟨hup, hdown⟩
    · exact .inl (hold.trans hfree)
    · refine .inr fun j oj hoj hb q hq => ?_
      rw [hw.like.kin_eq] at hb
      obtain ⟨oj', hoj', -, -, hpd'⟩ := hw.like.symm.some hoj
      rw [← hpd'] at hq
      rcases hb with hb|hb
      · obtain ⟨found, hfound, hnone⟩ := findProperty_eq h.kin oid new.str
        rw [hup] at hfound
        exact hnone (Except.ok.inj hfound).symm j oj' hoj' (by simp [ho]) hb q hq
      · obtain ⟨b, hb', hbelow⟩ := definedAtOrBelow_eq h.kin (i := oid) (by simp [ho]) new.str
        rw [hdown] at hb'
        intro he
        have := hbelow.mpr ⟨j, oj', hoj', hb, q, hq, he⟩
        rw [← Except.ok.inj hb'] at this
        cases this

end Rename

end Db
end LambdaMoo.Database
