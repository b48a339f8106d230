import LambdaMoo.WaifLists

/-!
# Adding and deleting properties

A property is added to and removed from an object and all its descendants at
the offsets that a walk down gives them, which are those of the definition.
-/

set_option autoImplicit false

namespace LambdaMoo.Database
namespace Db

open Forest

/-- Other definitions on one object, before the slots follow. -/
structure Redefined (db db1 : Db) (root : ℤ) : Prop where
  size : db1.numObjects = db.numObjects
  other : ∀ i, i ≠ root → db1.objects i = db.objects i
  self : ∀ o, db.objects root = some o → ∃ o1, db1.objects root = some o1 ∧ o1.kin = o.kin ∧
    o1.place = o.place ∧ o1.propval = o.propval

section Redefined
variable {db db1 : Db} {root : ℤ} (h1 : db.Redefined db1 root) {o : Object}
  (ho : db.objects root = some o)
include h1 ho

omit ho in
theorem Redefined.find {i : ℤ} {oi : Object} (hi : db.objects i = some oi) :
    ∃ o1, db1.objects i = some o1 ∧ o1.kin = oi.kin ∧ o1.place = oi.place ∧
      o1.propval = oi.propval ∧ (i ≠ root → o1 = oi) := by
  by_cases he : i = root
  · subst he
    obtain ⟨o1, ho1, hk, hp, hv⟩ := h1.self oi hi
    exact ⟨o1, ho1, hk, hp, hv, fun hne => absurd rfl hne⟩
  · exact ⟨oi, (h1.other i he).trans hi, rfl, rfl, rfl, fun _ => rfl⟩

theorem Redefined.isSome (i : ℤ) : (db1.objects i).isSome = (db.objects i).isSome := by
  by_cases he : i = root
  · subst he
    obtain ⟨o1, ho1, -⟩ := h1.self o ho
    rw [ho1, ho, Option.isSome_some, Option.isSome_some]
  · rw [h1.other i he]

theorem Redefined.field {β : Type} (g : Object → β)
    (hg : ∀ o1, db1.objects root = some o1 → g o1 = g o) (i : ℤ) :
    (db1.objects i).map g = (db.objects i).map g := by
  by_cases he : i = root
  · subst he
    obtain ⟨o1, ho1, -⟩ := h1.self o ho
    rw [ho1, ho, Option.map_some, Option.map_some, hg o1 ho1]
  · rw [h1.other i he]

theorem Redefined.kin_eq : db1.kin = db.kin := by
  funext i
  refine h1.field ho (·.kin) (fun o1 ho1 => ?_) i
  obtain ⟨o2, ho2, hk, -⟩ := h1.self o ho
  rw [Option.some.inj (ho1.symm.trans ho2), hk]

theorem Redefined.place_eq : db1.place = db.place := by
  funext i
  refine h1.field ho (·.place) (fun o1 ho1 => ?_) i
  obtain ⟨o2, ho2, -, hp, -⟩ := h1.self o ho
  rw [Option.some.inj (ho1.symm.trans ho2), hp]

theorem Redefined.uids_eq (i : ℤ) : db1.uids i = db.uids i := by
  cases hi : db.objects i with
  | none =>
    have hn := h1.isSome ho i
    rw [hi, Option.isSome_none, Option.isSome_eq_false_iff, Option.isNone_iff_eq_none] at hn
    rw [uids_none hi, uids_none hn]
  | some oi =>
    obtain ⟨o1, ho1, -, -, hv, -⟩ := h1.find hi
    rw [uids_some hi, uids_some ho1, hv]

/-- The walk in the database with the other definitions. -/
theorem Redefined.visits (hf : IsForest nothing db.kin) (pos : ℕ) :
    ∃ ds, db1.subtree db1.fuel root pos = .ok ds ∧ db1.Visits root pos ds ∧ db.Visits root pos ds := by
  have hr1 : (db1.objects root).isSome = true := by simp [h1.isSome ho, ho]
  obtain ⟨ds, hds, hv1⟩ := subtree_eq (h1.kin_eq ho ▸ hf) pos hr1
  refine ⟨ds, hds, hv1, hv1.congr hr1 (fun i => (h1.isSome ho i).symm) fun i o1 oi hne ho1 hoi => ?_⟩
  rw [h1.other i hne] at ho1
  obtain rfl := Option.some.inj (ho1.symm.trans hoi)
  exact ⟨rfl, rfl⟩

/-- The database is sound again when every slot array has got the new end. -/
theorem Redefined.sound (h : db.Sound) (hn : db1.Named) {db2 : Db} {pos : ℕ}
    {ds : List (ℤ × ℕ)} (tail : List ℕ) {Q : ℤ × ℕ → Object → Object → Prop}
    (hv : db.Visits root pos ds) (hp : db1.Patch db2 ds Q)
    (hshape : ∀ d o o', Q d o o' → o'.shape = o.shape)
    (huid : ∀ d o1 o2, d ∈ ds → db1.objects d.1 = some o1 → Q d o1 o2 →
      o2.propval.map (·.uid) = (o1.propval.map (·.uid)).take d.2++tail)
    (hroot : ∀ o1, db1.objects root = some o1 →
      (db.uids root).take pos++tail = o1.propdefs.map (·.uid)++db.uids o.kin.up)
    (hown : ∀ d o1 o2, d ∈ ds → db1.objects d.1 = some o1 → Q d o1 o2 →
      ∀ pv ∈ o2.propval.take o1.propdefs.length, pv.var.type ≠ .clear) : db2.Sound := by
  have hlike : db1.Like db2 := hp.like hshape
  have hr : (db.objects root).isSome = true := by simp [ho]
  have hrmem : root ∈ ds.map Prod.fst := (hv.mem root).mpr ⟨hr, .refl⟩
  have hsome : ∀ i, (db2.objects i).isSome = (db.objects i).isSome := fun i =>
    (hp.isSome i).trans (h1.isSome ho i)
  have hoff : ∀ i, i ∉ ds.map Prod.fst → db2.uids i = db.uids i := by
    intro i hi
    rw [← h1.uids_eq ho i, uids, uids, hp.off i hi]
  have hon : ∀ d ∈ ds, db2.uids d.1 = (db.uids d.1).take d.2++tail := by
    intro d hd
    have hds : (db1.objects d.1).isSome = true := by
      rw [h1.isSome ho]
      exact ((hv.mem d.1).mp (List.mem_map_of_mem hd)).1
    obtain ⟨o1, ho1⟩ := Option.isSome_iff_exists.mp hds
    obtain ⟨o2, ho2, hq⟩ := hp.on d hd o1 ho1
    rw [uids_some ho2, huid d o1 o2 hd ho1 hq, ← h1.uids_eq ho, uids_some ho1]
  refine ⟨?_, ?_, hn.like hlike (le_of_eq hp.uid.symm), ?_, fun i o2 ho2 pv hpv => ?_⟩
  · rw [hlike.kin_eq, h1.kin_eq ho]
    exact h.kin
  · rw [hlike.place_eq, h1.place_eq ho]
    exact h.place
  · refine h.order.retail hv hsome (fun i oi o2 hne hoi ho2 => ?_) hoff hon fun o2 ho2 => ?_
    · rw [← h1.other i hne] at hoi
      obtain ⟨o3, ho3, hk, -, hpd⟩ := hlike.some hoi
      obtain rfl := Option.some.inj (ho2.symm.trans ho3)
      exact ⟨by rw [hk], hpd⟩
    · obtain ⟨o1, ho1, hk1, -⟩ := h1.self o ho
      obtain ⟨o3, ho3, hk, -, hpd⟩ := hlike.some ho1
      obtain rfl := Option.some.inj (ho2.symm.trans ho3)
      obtain ⟨rest, hds, -⟩ := hv.head hr
      have hup : o.kin.up ∉ ds.map Prod.fst := by
        intro hm
        obtain ⟨hs, hb⟩ := (hv.mem _).mp hm
        have hne : o.kin.up ≠ nothing := by
          intro h0
          rw [h0, nothing_free] at hs
          cases hs
        exact h.kin.irrefl (above_iff.mpr ⟨o, ho, rfl, hne⟩) hb
      rw [hon (root, pos) (by simp [hds]), hroot o1 ho1, hpd, hk, hk1, hoff _ hup]
  · by_cases hi : i ∈ ds.map Prod.fst
    · obtain ⟨d, hd, rfl⟩ := List.mem_map.mp hi
      obtain ⟨o1, ho1, -, -, hpd⟩ := hlike.symm.some ho2
      obtain ⟨o3, ho3, hq⟩ := hp.on d hd o1 ho1
      obtain rfl := Option.some.inj (ho2.symm.trans ho3)
      exact hown d o1 o2 hd ho1 hq pv (hpd ▸ hpv)
    · have hne : i ≠ root := fun he => hi (he ▸ hrmem)
      rw [hp.off i hi, h1.other i hne] at ho2
      exact h.own i o2 ho2 pv hpv

/-- The names stay apart when the new definitions are apart from those above and below. -/
theorem Redefined.named (h : db.Named) (hu : db.nextUid ≤ db1.nextUid) {o1 : Object}
    (ho1 : db1.objects root = some o1)
    (hnear : ∀ i oi, i ≠ root → db.objects i = some oi →
      Below nothing db.kin i root ∨ Below nothing db.kin root i →
      ∀ p ∈ o1.propdefs, ∀ q ∈ oi.propdefs, p.name.str.fold ≠ q.name.str.fold)
    (hself : ∀ p ∈ o1.propdefs, ∀ q ∈ o1.propdefs, p.name.str.fold = q.name.str.fold → p = q)
    (hmade : ∀ p ∈ o1.propdefs, p.uid < db1.nextUid ∧
      (p.uid ∈ o.propdefs.map (·.uid) ∨ db.nextUid ≤ p.uid))
    (honce : (o1.propdefs.map (·.uid)).Nodup) : db1.Named := by
  have hne : ∀ {i oi}, i ≠ root → db1.objects i = some oi → db.objects i = some oi := by
    intro i oi hi hoi
    rw [← h1.other i hi, hoi]
  have hat : ∀ {oi}, db1.objects root = some oi → oi = o1 := by
    intro oi hoi
    exact Option.some.inj (hoi.symm.trans ho1)
  have hsingle : ∀ i oi, i ≠ root → db1.objects i = some oi → ∀ p ∈ o1.propdefs,
      ∀ q ∈ oi.propdefs, p.uid ≠ q.uid := by
    intro i oi hi hoi p hp q hq he
    rcases (hmade p hp).2 with hm|hm
    · obtain ⟨p', hp', he'⟩ := List.mem_map.mp hm
      exact hi (h.single i root oi o (hne hi hoi) ho q hq p' hp' (he.symm.trans he'.symm))
    · have := h.made i oi (hne hi hoi) q hq
      omega
  refine ⟨fun i j oi oj hi hj hb p hp q hq he => ?_, fun i oi hi p hp => ?_, fun i oi hi => ?_,
    fun i j oi oj hi hj p hp q hq he => ?_⟩
  · rw [h1.kin_eq ho] at hb
    by_cases hir : i = root
    · subst hir
      obtain rfl := hat hi
      by_cases hjr : j = i
      · subst hjr
        obtain rfl := hat hj
        exact ⟨rfl, hself p hp q hq he⟩
      · exact absurd he (hnear j oj hjr (hne hjr hj) (.inr hb) p hp q hq)
    · by_cases hjr : j = root
      · subst hjr
        obtain rfl := hat hj
        exact absurd he.symm (hnear i oi hir (hne hir hi) (.inl hb) q hq p hp)
      · exact h.apart i j oi oj (hne hir hi) (hne hjr hj) hb p hp q hq he
  · by_cases hir : i = root
    · subst hir
      obtain rfl := hat hi
      exact (hmade p hp).1
    · exact lt_of_lt_of_le (h.made i oi (hne hir hi) p hp) hu
  · by_cases hir : i = root
    · subst hir
      obtain rfl := hat hi
      exact honce
    · exact h.once i oi (hne hir hi)
  · by_cases hir : i = root
    · subst hir
      obtain rfl := hat hi
      by_contra hij
      exact hsingle j oj (Ne.symm hij) hj p hp q hq he
    · by_cases hjr : j = root
      · subst hjr
        obtain rfl := hat hj
        exact absurd he.symm (hsingle i oi hir hi q hq p hp)
      · exact h.single i j oi oj (hne hir hi) (hne hjr hj) p hp q hq he

/-- Definitions that differ from the old ones in their names only. -/
theorem Redefined.sound_renamed (h : db.Sound) (hn : db1.Named) {o1 : Object}
    (ho1 : db1.objects root = some o1) (hu : o1.propdefs.map (·.uid) = o.propdefs.map (·.uid)) :
    db1.Sound := by
  have hlen : o1.propdefs.length = o.propdefs.length := by
    simpa using congrArg List.length hu
  obtain ⟨o2, ho2, hk, -, hv⟩ := h1.self o ho
  obtain rfl := Option.some.inj (ho1.symm.trans ho2)
  refine ⟨h1.kin_eq ho ▸ h.kin, h1.place_eq ho ▸ h.place, hn, fun i oi hi => ?_,
    fun i oi hi pv hpv => ?_⟩
  · rw [h1.uids_eq ho, h1.uids_eq ho]
    by_cases hir : i = root
    · subst hir
      obtain rfl := Option.some.inj (ho1.symm.trans hi)
      rw [hu, hk]
      exact h.order i o ho
    · rw [h1.other i hir] at hi
      exact h.order i oi hi
  · by_cases hir : i = root
    · subst hir
      obtain rfl := Option.some.inj (ho1.symm.trans hi)
      rw [hv, hlen] at hpv
      exact h.own i o ho pv hpv
    · rw [h1.other i hir] at hi
      exact h.own i oi hi pv hpv

end Redefined

section Insert

theorem insertProp_eq {db : Db} {oid : ℤ} (pos : ℕ) (pv : Pval) {o : Object}
    (ho : db.objects oid = some o) (hn : db.countProperties oid = .ok (o.propval.length+1))
    (hpos : pos ≤ o.propval.length) :
    ∃ f, db.insertProp oid pos pv = .ok (db.modify oid f) ∧ (f o).shape = o.shape ∧
      (f o).waifPropdefs = none ∧ ∃ pv', pv'.uid = pv.uid ∧ pv'.var = pv.var ∧
        (f o).propval = o.propval.take pos++pv'::o.propval.drop pos := by
  let pv' : Pval := if pv.perms.chown then { pv with owner := o.owner } else pv
  have hpv : pv'.uid = pv.uid ∧ pv'.var = pv.var := by
    simp only [pv']
    by_cases hc : pv.perms.chown = true
    · rw [if_pos hc]
      exact ⟨rfl, rfl⟩
    · rw [if_neg hc]
      exact ⟨rfl, rfl⟩
  refine ⟨fun o' => { o' with
    waifPropdefs := none
    propval := o'.propval.take pos++pv'::(o'.propval.drop pos).take (o.propval.length+1-(pos+1)) },
    ?_, rfl, rfl, pv', hpv.1, hpv.2, ?_⟩
  · rw [insertProp]
    refine bind_ok.mpr ⟨_, hn, bind_ok.mpr ⟨o, object_ok ho, ?_⟩⟩
    rw [if_pos ⟨le_refl _, by omega⟩]
    rfl
  · have hle : (o.propval.drop pos).length ≤ o.propval.length+1-(pos+1) := by
      rw [List.length_drop]
      omega
    simp only [List.take_of_length_le hle]

theorem removeProp_eq {db : Db} {oid : ℤ} {pos n : ℕ} {o : Object} (ho : db.objects oid = some o)
    (hn : db.countProperties oid = .ok n) (hlen : o.propval.length = n+1) (hpos : pos ≤ n) :
    ∃ f, db.removeProp oid pos = .ok (db.modify oid f) ∧ (f o).shape = o.shape ∧
      (f o).waifPropdefs = none ∧ (f o).propval = o.propval.take pos++o.propval.drop (pos+1) := by
  refine ⟨fun o' => { o' with
    waifPropdefs := none
    propval := o'.propval.take pos++(o'.propval.drop (pos+1)).take (n-pos) }, ?_, rfl, rfl, ?_⟩
  · rw [removeProp]
    refine bind_ok.mpr ⟨n, hn, bind_ok.mpr ⟨o, object_ok ho, ?_⟩⟩
    rw [if_pos ⟨by omega, hpos⟩]
    rfl
  · have hle : (o.propval.drop (pos+1)).length ≤ n-pos := by
      rw [List.length_drop]
      omega
    simp only [List.take_of_length_le hle]

end Insert

/-- The database when a definition was added and no slot was yet. -/
def withPropdef (db : Db) (oid : ℤ) (pname : Name) : Db :=
  { db.modify oid fun o => { o with propdefs := o.propdefs++[⟨pname, db.nextUid⟩] } with
    nextUid := db.nextUid+1 }

/-- What happens to the slots of an object when a property is added. -/
structure Inserted (root : ℤ) (pv : Pval) (d : ℤ × ℕ) (o o' : Object) : Prop where
  shape : o'.shape = o.shape
  waifPropdefs : o'.waifPropdefs = none
  propval : ∃ pv', pv'.uid = pv.uid ∧ (d.1 = root → pv'.var = pv.var) ∧
    o'.propval = o.propval.take d.2++pv'::o.propval.drop d.2

section Add
variable {db : Db} (h : db.Sound) {oid : ℤ} {o : Object} (ho : db.objects oid = some o)
include h ho

omit h ho in
theorem withPropdef_redefined (pname : Name) : db.Redefined (db.withPropdef oid pname) oid := by
  refine ⟨rfl, fun i hi => modify_ne db hi _, fun o' ho' => ?_⟩
  exact ⟨_, modify_self ho' _, rfl, rfl, rfl⟩

theorem withPropdef_count (pname : Name) {i : ℤ} (hi : (db.objects i).isSome = true)
    (hb : Below nothing db.kin i oid) :
    (db.withPropdef oid pname).countProperties i = .ok ((db.uids i).length+1) := by
  let f : Object → Object := fun o => { o with propdefs := o.propdefs++[⟨pname, db.nextUid⟩] }
  have hlike : (db.modify oid f).Like (db.withPropdef oid pname) := ⟨rfl, fun _ => rfl⟩
  have hkin : (db.modify oid f).kin = db.kin := modify_kin fun _ => rfl
  obtain ⟨n, hn, hc⟩ := count_modify (f := f) (fun _ => rfl) h.kin ho (a := 0) (b := 1)
    (by simp [f]) hi hb (h.order.countProperties h.kin i)
  rw [hlike.countProperties (hkin ▸ h.kin), hn, ← hc, Nat.add_zero]

theorem withPropdef_named {pname : Name}
    (hup : ∀ i oi, db.objects i = some oi → Below nothing db.kin oid i → ∀ p ∈ oi.propdefs,
      p.name.str.fold ≠ pname.str.fold)
    (hdown : ∀ i oi, db.objects i = some oi → Below nothing db.kin i oid → ∀ p ∈ oi.propdefs,
      p.name.str.fold ≠ pname.str.fold) : (db.withPropdef oid pname).Named := by
  refine (withPropdef_redefined pname).named ho h.named (Nat.le_succ _) (modify_self ho _)
    (fun i oi hi hoi hnear p hp q hq he => ?_) (fun p hp q hq he => ?_) (fun p hp => ?_) ?_
  · rcases List.mem_append.mp hp with hp|hp
    · rcases hnear with hb|hb
      · exact hi (h.named.apart i oid oi o hoi ho hb q hq p hp he.symm).1
      · exact hi (h.named.apart oid i o oi ho hoi hb p hp q hq he).1.symm
    · obtain rfl := List.mem_singleton.mp hp
      rcases hnear with hb|hb
      · exact hdown i oi hoi hb q hq he.symm
      · exact hup i oi hoi hb q hq he.symm
  · rcases List.mem_append.mp hp with hp|hp
    · rcases List.mem_append.mp hq with hq|hq
      · exact (h.named.apart oid oid o o ho ho .refl p hp q hq he).2
      · obtain rfl := List.mem_singleton.mp hq
        exact absurd he (hup oid o ho .refl p hp)
    · obtain rfl := List.mem_singleton.mp hp
      rcases List.mem_append.mp hq with hq|hq
      · exact absurd he.symm (hup oid o ho .refl q hq)
      · rw [List.mem_singleton.mp hq]
  · rcases List.mem_append.mp hp with hp|hp
    · exact ⟨Nat.lt_succ_of_lt (h.named.made oid o ho p hp), .inl (List.mem_map_of_mem hp)⟩
    · obtain rfl := List.mem_singleton.mp hp
      exact ⟨Nat.lt_succ_self _, .inr (le_refl _)⟩
  · rw [List.map_append, List.nodup_append]
    refine ⟨h.named.once oid o ho, by simp, ?_⟩
    intro u hu v hv he
    obtain ⟨p, hp, rfl⟩ := List.mem_map.mp hu
    have := h.named.made oid o ho p hp
    have hv : v = db.nextUid := by simpa using hv
    omega

/-- The slots of a property just defined. -/
theorem insertPropRecursively_tends {pname : Name} (hn : (db.withPropdef oid pname).Named)
    (pv : Pval) (hpv : pv.uid = db.nextUid) (hval : pv.var.type ≠ .clear) :
    ∃ db2, (db.withPropdef oid pname).insertPropRecursively oid o.propdefs.length pv = .ok db2 ∧
      db.Tends db2 := by
  have h1 : db.Redefined (db.withPropdef oid pname) oid := withPropdef_redefined pname
  obtain ⟨ds, hds, -, hv⟩ := h1.visits ho h.kin o.propdefs.length
  have hvis := h.order.visits hv (propdefs_le h ho)
  have hin : ∀ d ∈ ds, (db.objects d.1).isSome = true ∧ Below nothing db.kin d.1 oid :=
    fun d hd => (hv.mem d.1).mp (List.mem_map_of_mem hd)
  have hf1 : IsForest nothing (db.withPropdef oid pname).kin := h1.kin_eq ho ▸ h.kin
  have hlen : ∀ {i o1}, (db.withPropdef oid pname).objects i = some o1 →
      o1.propval.length = (db.uids i).length := by
    intro i o1 ho1
    rw [← uids_length ho1, h1.uids_eq ho]
  have hfold := foldlM_patch (db.withPropdef oid pname)
    (fun db d => db.insertProp d.1 d.2 (if d.1 = oid then pv else { pv with var := .clear }))
    (Inserted oid pv)
    hv.nodup (fun d hd => by rw [h1.isSome ho]; exact (hin d hd).1)
    (fun pre d post db' hd hp o1 ho1 ho1' => by
      have hm : d ∈ ds := by simp [hd]
      have hlike := hp.like fun _ _ _ hq => hq.shape
      have hc := withPropdef_count h ho pname (hin d hm).1 (hin d hm).2
      rw [← hlike.countProperties hf1, ← hlen ho1] at hc
      obtain ⟨f, hf, hs, hw, pv', huid, hvar, hpval⟩ := insertProp_eq d.2
        (if d.1 = oid then pv else { pv with var := .clear }) ho1' hc
        (by rw [hlen ho1]; exact (hvis d hm).1)
      refine ⟨f, hf, hs, hw, pv', ?_, fun hr => ?_, hpval⟩
      · rw [huid]
        by_cases hr : d.1 = oid <;> simp [hr]
      · rw [hvar, if_pos hr])
  obtain ⟨db2, hdb2, hp⟩ := hfold
  refine ⟨db2, ?_, ?_⟩
  · rw [insertPropRecursively]
    exact bind_ok.mpr ⟨ds, hds, hdb2⟩
  · refine hp.tends h.kin ?_ ⟨rfl, rfl⟩ (fun i hi => by rw [h1.other i hi]) (by simp [ho]) hv
      fun _ _ _ hq => ⟨hq.shape, hq.waifPropdefs⟩
    refine h1.sound ho h hn (db.nextUid::(db.uids oid).drop o.propdefs.length) hv hp
      (fun _ _ _ hq => hq.shape) (fun d o1 o2 hd ho1 hq => ?_)
      (fun o1 ho1 => ?_) fun d o1 o2 hd ho1 hq pv2 hpv2 => ?_
    · obtain ⟨pv', huid, -, hpval⟩ := hq.propval
      rw [hpval, List.map_append, List.map_cons, huid, hpv, List.map_take, List.map_drop,
        ← uids_some ho1, h1.uids_eq ho, (hvis d hd).2]
    · obtain rfl := Option.some.inj (ho1.symm.trans (modify_self ho _))
      rw [h.order oid o ho]
      simp
    · obtain ⟨pv', -, hvar, hpval⟩ := hq.propval
      rcases hv.cases h.kin hd with rfl|⟨hne, od, e, hod, -, -, hoff⟩
      · obtain rfl := Option.some.inj (ho1.symm.trans (modify_self ho _))
        have hle : o.propdefs.length ≤ o.propval.length := by
          rw [← uids_length ho]
          exact propdefs_le h ho
        rw [hpval] at hpv2
        have hpv2 : pv2 ∈ o.propval.take o.propdefs.length ∨ pv2 = pv' := by
          simpa [List.take_append, List.take_take, hle] using hpv2
        rcases hpv2 with hm|rfl
        · exact h.own oid o ho pv2 hm
        · rw [hvar rfl]
          exact hval
      · rw [h1.other d.1 hne, hod] at ho1
        obtain rfl := Option.some.inj ho1
        have hle : d.2 ≤ od.propval.length := by
          rw [← uids_length hod]
          exact (hvis d hd).1
        rw [hpval, List.take_append_of_le_length (by rw [List.length_take]; omega),
          List.take_take, Nat.min_eq_left (by omega)] at hpv2
        exact h.own d.1 od hod pv2 hpv2

theorem addPropdef_tends (pname : Name) {value : Var} (hval : value.type ≠ .clear) (owner : ℤ)
    (flags : PropPerms) :
    ∃ r, db.addPropdef oid pname value owner flags = .ok r ∧ db.Tends r.2 := by
  obtain ⟨found, hfound, hnone⟩ := findProperty_eq h.kin oid pname.str
  obtain ⟨b, hb, hbelow⟩ := definedAtOrBelow_eq h.kin (i := oid) (by simp [ho]) pname.str
  cases found with
  | some x => exact ⟨(false, db), bind_ok.mpr ⟨_, hfound, rfl⟩, .refl h⟩
  | none =>
    cases b with
    | true => exact ⟨(false, db), bind_ok.mpr ⟨_, hfound, bind_ok.mpr ⟨_, hb, rfl⟩⟩, .refl h⟩
    | false =>
      have hn : (db.withPropdef oid pname).Named := by
        apply withPropdef_named h ho
        · intro i oi hi hb'
          exact hnone rfl i oi hi (by simp [ho]) hb'
        · intro i oi hi hb' p hp he
          exact absurd (hbelow.mpr ⟨i, oi, hi, hb', p, hp, he⟩) (by simp)
      obtain ⟨db2, hins, hs⟩ := insertPropRecursively_tends h ho hn
        ⟨value, owner, flags, db.nextUid⟩ rfl hval
      exact ⟨(true, db2), bind_ok.mpr ⟨_, hfound, bind_ok.mpr ⟨_, hb, bind_ok.mpr ⟨o, object_ok ho,
        bind_ok.mpr ⟨db2, hins, rfl⟩⟩⟩⟩, hs⟩

end Add

/-- What happens to the slots of an object when a property is deleted. -/
structure Removed (d : ℤ × ℕ) (o o' : Object) : Prop where
  shape : o'.shape = o.shape
  waifPropdefs : o'.waifPropdefs = none
  propval : o'.propval = o.propval.take d.2++o.propval.drop (d.2+1)

theorem mem_take_of_erased {α : Type} {xs : List α} {i n : ℕ} {x : α} (hi : i < n)
    (hn : n ≤ xs.length) (hx : x ∈ (xs.take i++xs.drop (i+1)).take (n-1)) : x ∈ xs.take n := by
  rw [List.take_append, List.mem_append, List.take_take, List.length_take] at hx
  rcases hx with hx|hx
  · exact List.take_subset_take_left _ (by omega) hx
  · rw [List.take_drop] at hx
    exact List.take_subset_take_left _ (by omega) (List.mem_of_mem_drop hx)

section Delete
variable {db : Db} (h : db.Sound) {oid : ℤ} {o : Object} (ho : db.objects oid = some o)
  {i : ℕ} (hi : i < o.propdefs.length)

theorem eraseIdx_redefined : db.Redefined
    (db.modify oid fun o => { o with propdefs := o.propdefs.eraseIdx i }) oid := by
  refine ⟨rfl, fun j hj => modify_ne db hj _, fun o' ho' => ?_⟩
  exact ⟨_, modify_self ho' _, rfl, rfl, rfl⟩

include h ho

theorem eraseIdx_named :
    (db.modify oid fun o => { o with propdefs := o.propdefs.eraseIdx i }).Named := by
  have hsub : ∀ {p}, p ∈ o.propdefs.eraseIdx i → p ∈ o.propdefs := List.mem_of_mem_eraseIdx
  refine eraseIdx_redefined.named ho h.named (le_refl _) (modify_self ho _)
    (fun j oj hj hoj hnear p hp q hq he => ?_) (fun p hp q hq he => ?_) (fun p hp => ?_) ?_
  · rcases hnear with hb|hb
    · exact hj (h.named.apart j oid oj o hoj ho hb q hq p (hsub hp) he.symm).1
    · exact hj (h.named.apart oid j o oj ho hoj hb p (hsub hp) q hq he).1.symm
  · exact (h.named.apart oid oid o o ho ho .refl p (hsub hp) q (hsub hq) he).2
  · exact ⟨h.named.made oid o ho p (hsub hp), .inl (List.mem_map_of_mem (hsub hp))⟩
  · exact (h.named.once oid o ho).sublist ((List.eraseIdx_sublist _ _).map _)

include hi

theorem eraseIdx_count {j : ℤ} (hj : (db.objects j).isSome = true)
    (hb : Below nothing db.kin j oid) :
    ∃ n, (db.modify oid fun o => { o with propdefs := o.propdefs.eraseIdx i }).countProperties j =
      .ok n ∧ n+1 = (db.uids j).length := by
  obtain ⟨n, hn, hc⟩ := count_modify
    (f := fun o => { o with propdefs := o.propdefs.eraseIdx i }) (fun _ => rfl) h.kin ho
    (a := 1) (b := 0) (by simp only [List.length_eraseIdx, if_pos hi]; omega) hj hb
    (h.order.countProperties h.kin j)
  exact ⟨n, hn, hc⟩

theorem removePropRecursively_tends :
    ∃ db2, (db.modify oid fun o => { o with
      propdefs := o.propdefs.eraseIdx i }).removePropRecursively oid i = .ok db2 ∧ db.Tends db2 := by
  let db1 : Db := db.modify oid fun o => { o with propdefs := o.propdefs.eraseIdx i }
  have h1 : db.Redefined db1 oid := eraseIdx_redefined
  have hlen : o.propdefs.length ≤ (db.uids oid).length := propdefs_le h ho
  obtain ⟨ds, hds, -, hv⟩ := h1.visits ho h.kin i
  have hvis := h.order.visits hv (by omega)
  have hin : ∀ d ∈ ds, (db.objects d.1).isSome = true ∧ Below nothing db.kin d.1 oid :=
    fun d hd => (hv.mem d.1).mp (List.mem_map_of_mem hd)
  have hlt : ∀ d ∈ ds, d.2 < (db.uids d.1).length := by
    intro d hd
    have := congrArg List.length (hvis d hd).2
    rw [List.length_drop, List.length_drop] at this
    omega
  have hf1 : IsForest nothing db1.kin := h1.kin_eq ho ▸ h.kin
  obtain ⟨db2, hdb2, hp⟩ := foldlM_patch db1
    (fun db d => db.removeProp d.1 d.2) Removed hv.nodup
    (fun d hd => by rw [h1.isSome ho]; exact (hin d hd).1)
    (fun pre d post db' hd hp o1 ho1 ho1' => by
      have hm : d ∈ ds := by simp [hd]
      have hlike := hp.like fun _ _ _ hq => hq.shape
      obtain ⟨n, hn, hc⟩ := eraseIdx_count h ho hi (hin d hm).1 (hin d hm).2
      rw [← hlike.countProperties hf1] at hn
      have := hlt d hm
      have hl : o1.propval.length = n+1 := by rw [← uids_length ho1, h1.uids_eq ho, hc]
      obtain ⟨f, hf, hs, hw, hpval⟩ := removeProp_eq ho1' hn hl (by omega : d.2 ≤ n)
      exact ⟨f, hf, hs, hw, hpval⟩)
  refine ⟨db2, bind_ok.mpr ⟨ds, hds, hdb2⟩, ?_⟩
  refine hp.tends h.kin ?_ ⟨rfl, rfl⟩ (fun i hi => by rw [h1.other i hi]) (by simp [ho]) hv
    fun _ _ _ hq => ⟨hq.shape, hq.waifPropdefs⟩
  refine h1.sound ho h (eraseIdx_named h ho) ((db.uids oid).drop (i+1)) hv hp
    (fun _ _ _ hq => hq.shape) (fun d o1 o2 hd ho1 hq => ?_) (fun o1 ho1 => ?_)
    fun d o1 o2 hd ho1 hq pv hpv => ?_
  · have hd2 := congrArg (List.drop 1) (hvis d hd).2
    rw [List.drop_drop, List.drop_drop] at hd2
    rw [hq.propval, List.map_append, List.map_take, List.map_drop, ← uids_some ho1, h1.uids_eq ho,
      hd2]
  · obtain rfl := Option.some.inj (ho1.symm.trans (modify_self ho _))
    rw [← List.eraseIdx_eq_take_drop_succ, h.order oid o ho,
      List.eraseIdx_append_of_lt_length (by simpa using hi), List.eraseIdx_map]
  · rw [hq.propval] at hpv
    rcases hv.cases h.kin hd with rfl|⟨hne, od, e, hod, -, -, hoff⟩
    · obtain rfl := Option.some.inj (ho1.symm.trans (modify_self ho _))
      refine h.own oid o ho pv ?_
      have hle : o.propdefs.length ≤ o.propval.length := by
        rw [← uids_length ho]
        exact hlen
      apply mem_take_of_erased hi hle
      simpa only [List.length_eraseIdx, if_pos hi] using hpv
    · rw [h1.other d.1 hne, hod] at ho1
      obtain rfl := Option.some.inj ho1
      have hle : d.2 ≤ od.propval.length := by
        rw [← uids_length hod]
        exact (hvis d hd).1
      rw [List.take_append_of_le_length (by rw [List.length_take]; omega), List.take_take,
        Nat.min_eq_left (by omega)] at hpv
      exact h.own d.1 od hod pv hpv

omit hi in
theorem deletePropdef_tends (pname : CStr) :
    ∃ r, db.deletePropdef oid pname = .ok r ∧ db.Tends r.2 := by
  cases hf : o.propdefs.findIdx? (·.named pname) with
  | none =>
    refine ⟨(false, db), bind_ok.mpr ⟨o, object_ok ho, ?_⟩, .refl h⟩
    simp only [hf]
    rfl
  | some i =>
    have hi : i < o.propdefs.length := (List.findIdx?_eq_some_iff_findIdx_eq.mp hf).1
    obtain ⟨db2, hdb2, hs⟩ := removePropRecursively_tends h ho hi
    refine ⟨(true, db2), bind_ok.mpr ⟨o, object_ok ho, ?_⟩, hs⟩
    simp only [hf]
    exact bind_ok.mpr ⟨db2, hdb2, rfl⟩

end Delete

end Db
end LambdaMoo.Database
