import LambdaMoo.Operations

/-!
# Property values under a new parent

A property keeps its slot on an object where it is defined above the object
before and after. Slots that a new ancestor brings are clear.
-/

set_option autoImplicit false

namespace LambdaMoo.Database
namespace Db

open Forest

/-- An object defines a property. -/
def Defines (db : Db) (a : ℤ) (u : ℕ) : Prop :=
  ∃ o, db.objects a = some o ∧ ∃ p ∈ o.propdefs, p.uid = u

/-- The first slot that was made for a property. -/
def lookup (u : ℕ) (pvs : List Pval) : Option Pval := pvs.find? (·.uid = u)

/-- The slot of an object for a property. -/
def slot (db : Db) (d : ℤ) (u : ℕ) : Option Pval := lookup u (db.slots d)

section Lookup
variable {u : ℕ} {xs ys : List Pval}

theorem lookup_none (h : u ∉ xs.map (·.uid)) : lookup u xs = none := by
  rw [lookup, List.find?_eq_none]
  intro pv hpv he
  exact h (List.mem_map.mpr ⟨pv, hpv, of_decide_eq_true he⟩)

theorem lookup_some (h : u ∈ xs.map (·.uid)) : ∃ pv, lookup u xs = some pv := by
  obtain ⟨pv, hpv, rfl⟩ := List.mem_map.mp h
  apply Option.isSome_iff_exists.mp
  rw [lookup, List.find?_isSome]
  exact ⟨pv, hpv, by simp⟩

theorem lookup_left (h : u ∈ xs.map (·.uid)) : lookup u (xs++ys) = lookup u xs := by
  obtain ⟨pv, hpv⟩ := lookup_some h
  rw [lookup, List.find?_append, ← lookup, hpv, Option.some_or]

theorem lookup_right (h : u ∉ xs.map (·.uid)) : lookup u (xs++ys) = lookup u ys := by
  rw [lookup, List.find?_append, ← lookup, lookup_none h, Option.none_or, ← lookup]

theorem lookup_nodup {pv : Pval} (hn : (xs.map (·.uid)).Nodup) (h : pv ∈ xs) :
    lookup pv.uid xs = some pv := by
  obtain ⟨pv', hpv'⟩ := lookup_some (List.mem_map_of_mem h)
  have hm := List.mem_of_find?_eq_some hpv'
  have he : pv'.uid = pv.uid := of_decide_eq_true (List.find?_some hpv' : _)
  rw [hpv', List.inj_on_of_nodup_map hn hm h he]

theorem lookup_inherit (owner : ℤ) :
    lookup u (xs.map (inherit owner)) = (lookup u xs).map (inherit owner) := by
  rw [lookup, List.find?_map]
  rfl

end Lookup

theorem slot_some {db : Db} {d : ℤ} {u : ℕ} (h : u ∈ db.uids d) : ∃ pv, db.slot d u = some pv :=
  lookup_some (uids_slots db d ▸ h)

theorem slot_none {db : Db} {d : ℤ} {u : ℕ} (h : u ∉ db.uids d) : db.slot d u = none :=
  lookup_none (uids_slots db d ▸ h)

section Sound
variable {db : Db} (h : db.Sound)
include h

theorem Sound.definer {a b : ℤ} {u : ℕ} (ha : db.Defines a u) (hb : db.Defines b u) : a = b := by
  obtain ⟨oa, hoa, p, hp, hpu⟩ := ha
  obtain ⟨ob, hob, q, hq, hqu⟩ := hb
  exact h.named.single a b oa ob hoa hob p hp q hq (hpu.trans hqu.symm)

/-- An object has slots for the properties defined on it and above. -/
theorem Sound.mem_uids {d : ℤ} (hd : (db.objects d).isSome = true) {u : ℕ} :
    u ∈ db.uids d ↔ ∃ a, Below nothing db.kin d a ∧ db.Defines a u := by
  obtain ⟨chain, -, hl⟩ := ancestors_eq h.kin d
  rw [hl.uids (h.order.mem hl), List.mem_flatMap]
  constructor
  · rintro ⟨⟨a, oa⟩, ha, hu⟩
    obtain ⟨hoa, -, hb⟩ := (hl.mem h.kin).mp ha
    exact ⟨a, hb, oa, hoa, List.mem_map.mp hu⟩
  · rintro ⟨a, hb, oa, hoa, hu⟩
    exact ⟨(a, oa), (hl.mem h.kin).mpr ⟨hoa, hd, hb⟩, List.mem_map.mpr hu⟩

theorem Sound.slot_isSome {d : ℤ} (hd : (db.objects d).isSome = true) {a : ℤ} {u : ℕ}
    (hu : db.Defines a u) : u ∈ db.uids d ↔ Below nothing db.kin d a := by
  rw [h.mem_uids hd]
  constructor
  · rintro ⟨b, hb, hbu⟩
    rwa [h.definer hu hbu]
  · intro hb
    exact ⟨a, hb, hu⟩

theorem Sound.uids_nodup (i : ℤ) : (db.uids i).Nodup := by
  obtain ⟨chain, -, hl⟩ := ancestors_eq h.kin i
  induction hl with
  | nil hn =>
    rw [uids_none hn]
    exact List.nodup_nil
  | @cons i o rest ho _ ih =>
    rw [h.order i o ho]
    refine List.nodup_append'.mpr ⟨h.named.once i o ho, ih, ?_⟩
    intro u hu hup
    have hs : (db.objects o.kin.up).isSome = true := by
      by_contra hn
      rw [uids_none (by simpa using hn)] at hup
      cases hup
    have hb := (h.slot_isSome hs ⟨o, ho, List.mem_map.mp hu⟩).mp hup
    have hne : o.kin.up ≠ nothing := by
      intro hx
      rw [hx, nothing_free] at hs
      cases hs
    exact h.kin.irrefl (above_iff.mpr ⟨o, ho, rfl, hne⟩) hb

/-- The slot that the search for a name ends at was made for the definition it finds. -/
theorem Sound.findSlot_uid {i : ℤ} {chain : List (ℤ × Object)} (hl : db.Lineage i chain)
    {name : CStr} {definer : ℤ} {n : ℕ} (hf : findSlot name 0 chain = some (definer, n)) :
    ∃ o p, db.objects definer = some o ∧ p ∈ o.propdefs ∧ p.named name = true ∧
      (db.uids i)[n]? = some p.uid := by
  have key : ∀ k, findSlot name k chain = some (definer, k+n) → ∃ o p,
      db.objects definer = some o ∧ p ∈ o.propdefs ∧ p.named name = true ∧
        (db.uids i)[n]? = some p.uid := by
    clear hf
    induction hl generalizing n with
    | nil =>
      intro k hf
      cases hf
    | @cons i o rest ho hrest ih =>
      intro k hf
      rw [findSlot] at hf
      rw [h.order i o ho]
      cases hi : o.propdefs.findIdx? (·.named name) with
      | some m =>
        simp only [hi, Option.some.injEq, Prod.mk.injEq] at hf
        obtain ⟨rfl, hn⟩ := hf
        obtain rfl : m = n := by omega
        obtain ⟨hlt, hp, -⟩ := List.findIdx?_eq_some_iff_getElem.mp hi
        refine ⟨o, o.propdefs[m], ho, List.getElem_mem hlt, hp, ?_⟩
        rw [List.getElem?_append_left (by simpa using hlt), List.getElem?_map,
          List.getElem?_eq_getElem hlt]
        rfl
      | none =>
        simp only [hi] at hf
        have hge := (findSlot_bound hf).1
        obtain ⟨o', p, ho', hp, hnamed, hu⟩ :=
          ih (n := n-o.propdefs.length) (k+o.propdefs.length) (by rw [hf]; congr 2; omega)
        refine ⟨o', p, ho', hp, hnamed, ?_⟩
        rw [List.getElem?_append_right (by simp; omega), List.length_map]
        exact hu
  exact key 0 (by rw [Nat.zero_add]; exact hf)

theorem Sound.slot_at {i : ℤ} {n u : ℕ} (hu : (db.uids i)[n]? = some u) :
    (db.slots i)[n]? = db.slot i u := by
  rw [uids_slots, List.getElem?_map, Option.map_eq_some_iff] at hu
  obtain ⟨pv, hpv, rfl⟩ := hu
  obtain ⟨hlt, rfl⟩ := List.getElem?_eq_some_iff.mp hpv
  rw [slot, hpv]
  exact (lookup_nodup (uids_slots db i ▸ h.uids_nodup i) (List.getElem_mem hlt)).symm

/-- Where the search for a name ends at a slot, it is the one for the property it found. -/
theorem Sound.findProperty_slot {i : ℤ} {name : CStr} {definer : ℤ} {n : ℕ}
    (hf : db.findProperty i name = .ok (some (.slot definer n))) :
    ∃ o p, db.objects definer = some o ∧ p ∈ o.propdefs ∧ p.named name = true ∧
      (db.slots i)[n]? = db.slot i p.uid := by
  rw [findProperty] at hf
  cases hb : builtIn name with
  | some b => simp [hb] at hf
  | none =>
    obtain ⟨chain, hc, hl⟩ := ancestors_eq h.kin i
    simp only [hb, hc, bind, Except.bind] at hf
    cases hs : findSlot name 0 chain with
    | none =>
      rw [hs] at hf
      cases hf
    | some x =>
      rw [hs] at hf
      simp only [pure, Except.pure, Except.ok.injEq, Option.some.injEq, PropHandle.slot.injEq] at hf
      obtain rfl : x = (definer, n) := Prod.ext hf.1 hf.2
      obtain ⟨o, p, ho, hp, hnamed, hu⟩ := h.findSlot_uid hl hs
      exact ⟨o, p, ho, hp, hnamed, h.slot_at hu⟩

end Sound

section Refilled
variable {db : Db} (h : db.Sound) {oid : ℤ} {o : Object} (ho : db.objects oid = some o)
  {parent : ℤ} {db' : Db}

/-- How the slots of an object change: some stay in front and some at the end, and others come
between. -/
structure Replaced (db db' : Db) (parent : ℤ) (d : ℤ) (owner : ℤ)
    (front gone back news last : List Pval) : Prop where
  old : db.slots d = front++(gone++back)
  new : db'.slots d = front++(news.map (inherit owner)++back)
  bringer : db.slots parent = news++last
  apart : ∀ u ∈ gone.map (·.uid), u ∉ news.map (·.uid)
  same : last.map (·.uid) = back.map (·.uid)

include h ho

theorem Refilled.apart {db1 : Db} (h1 : db.Adopted db1 oid parent)
    (hnot : ¬Below nothing db.kin parent oid) {ns os cs : List ℕ}
    (hex : db1.Exchange parent o.kin.up ns os cs) : ∀ u ∈ os, u ∉ ns := by
  intro u hos hns
  have hdef : ∀ {i : ℤ}, ¬Below nothing db1.kin i oid → u ∈ db1.uids i → ∃ a oa,
      db1.objects a = some oa ∧ (db1.objects i).isSome = true ∧ Below nothing db1.kin i a ∧
        ∃ p ∈ oa.propdefs, p.uid = u := by
    intro i hi hu
    obtain ⟨chain, -, hl⟩ := ancestors_eq h1.kin i
    rw [hl.uids (ordered_above h1.kin (h1.ordered h) hi hl), List.mem_flatMap] at hu
    obtain ⟨⟨a, oa⟩, ha, hu⟩ := hu
    obtain ⟨hoa, hs, hb⟩ := (hl.mem h1.kin).mp ha
    exact ⟨a, oa, hoa, hs, hb, List.mem_map.mp hu⟩
  obtain ⟨a, oa, hoa, hsa, hba, p, hp, hpu⟩ := hdef (h1.not_below_parent hnot)
    (by rw [hex.comes]; exact List.mem_append_left _ hns)
  obtain ⟨b, ob, hob, hsb, hbb, q, hq, hqu⟩ := hdef (h1.not_below_old h ho)
    (by rw [hex.goes]; exact List.mem_append_left _ hos)
  have hab : a = b := by
    obtain ⟨oa', hoa', -, hpa, -⟩ := h1.back hoa
    obtain ⟨ob', hob', -, hpb, -⟩ := h1.back hob
    exact h.named.single a b oa' ob' hoa' hob' p (hpa ▸ hp) q (hpb ▸ hq) (hpu.trans hqu.symm)
  subst hab
  have hcs : u ∈ cs := by
    rw [← hpu]
    exact hex.stays a oa hoa hsa hsb hba hbb p hp
  have hnd := h.uids_nodup parent
  rw [← h1.uids_eq, hex.comes] at hnd
  exact (List.nodup_append'.mp hnd).2.2 hns hcs

theorem Refilled.parts (hnot : ¬Below nothing db.kin parent oid)
    (hr : db.Refilled db' oid parent o) {d : ℤ} {od : Object} (hod : db.objects d = some od)
    (hd : Below nothing db.kin d oid) :
    ∃ front gone back news last, db.Replaced db' parent d od.owner front gone back news last := by
  obtain ⟨db1, ds, ns, os, cs, h1, hv, hex, hp⟩ := hr
  obtain ⟨⟨d, k⟩, hk, rfl⟩ := List.mem_map.mp ((hv.mem d).mpr ⟨by simp [hod], hd⟩)
  dsimp only at hod hd ⊢
  obtain ⟨l, ho1, -⟩ := h1.each _ od hod
  obtain ⟨o', ho', rfl⟩ := hp.on _ hk _ ho1
  obtain ⟨hle, hdr⟩ := h1.behind h ho hex hv hk ho1
  dsimp only at hle hdr ho'
  have hgone : ((od.propval.drop k).take os.length).map (·.uid) = os := by
    rw [List.map_take, List.map_drop, hdr, List.take_left' rfl]
  have hback : ((od.propval.drop k).drop os.length).map (·.uid) = cs := by
    rw [List.map_drop, List.map_drop, hdr, List.drop_left' rfl]
  have hnews : ((db.slots parent).take ns.length).map (·.uid) = ns := by
    rw [List.map_take, ← uids_slots, ← h1.uids_eq, hex.comes, List.take_left' rfl]
  have hlast : ((db.slots parent).drop ns.length).map (·.uid) = cs := by
    rw [List.map_drop, ← uids_slots, ← h1.uids_eq, hex.comes, List.drop_left' rfl]
  refine ⟨od.propval.take k, (od.propval.drop k).take os.length,
    (od.propval.drop k).drop os.length, (db.slots parent).take ns.length,
    (db.slots parent).drop ns.length, ?_, ?_, ?_, ?_, ?_⟩
  · rw [slots_some hod, List.take_append_drop, List.take_append_drop]
  · have hcs : ((od.propval.drop k).drop os.length).length = cs.length := by
      rw [← hback, List.length_map]
    rw [slots_some ho', refill, List.append_assoc, ← List.drop_drop, ← hcs, List.take_length]
  · rw [List.take_append_drop]
  · rw [hgone, hnews]
    exact Refilled.apart h ho h1 hnot hex
  · rw [hlast, hback]

end Refilled

namespace Replaced
variable {db db' : Db} {parent d owner : ℤ} {front gone back news last : List Pval}
  (hr : db.Replaced db' parent d owner front gone back news last) {u : ℕ}
include hr

theorem uids_old : db.uids d = front.map (·.uid)++(gone.map (·.uid)++back.map (·.uid)) := by
  rw [uids_slots, hr.old, List.map_append, List.map_append]

theorem uids_new : db'.uids d = front.map (·.uid)++(news.map (·.uid)++back.map (·.uid)) := by
  have hinherit : ((·.uid) : Pval → ℕ) ∘ inherit owner = (·.uid) := rfl
  rw [uids_slots, hr.new, List.map_append, List.map_append, List.map_map, hinherit]

theorem uids_parent : db.uids parent = news.map (·.uid)++back.map (·.uid) := by
  rw [uids_slots, hr.bringer, List.map_append, hr.same]

theorem kept (h : db.Sound) (hu : u ∈ db.uids d) (hu' : u ∈ db'.uids d) :
    db'.slot d u = db.slot d u := by
  rw [slot, slot, hr.old, hr.new]
  by_cases hf : u ∈ front.map (·.uid)
  · rw [lookup_left hf, lookup_left hf]
  · rw [lookup_right hf, lookup_right hf]
    have hnd := h.uids_nodup d
    have hndp := h.uids_nodup parent
    rw [hr.uids_old] at hu hnd
    rw [hr.uids_new] at hu'
    rw [hr.uids_parent] at hndp
    have hold := (List.mem_append.mp hu).resolve_left hf
    have hnew := (List.mem_append.mp hu').resolve_left hf
    have hback : u ∈ back.map (·.uid) := by
      rcases List.mem_append.mp hold with hx|hx
      · exact (List.mem_append.mp hnew).resolve_left (hr.apart u hx)
      · exact hx
    have hgone : u ∉ gone.map (·.uid) := fun hx =>
      (List.nodup_append'.mp (List.nodup_append'.mp hnd).2.1).2.2 hx hback
    have hnews : u ∉ (news.map (inherit owner)).map (·.uid) := by
      rw [List.map_map]
      exact fun hx => (List.nodup_append'.mp hndp).2.2 hx hback
    rw [lookup_right hgone, lookup_right hnews]

/-- A slot that comes is the new parent's, as a child of the object's owner gets it. -/
theorem comes (hu : u ∉ db.uids d) (hu' : u ∈ db'.uids d) :
    db'.slot d u = (db.slot parent u).map (inherit owner) := by
  rw [hr.uids_old, List.mem_append, List.mem_append, not_or, not_or] at hu
  obtain ⟨hf, -, hb⟩ := hu
  rw [hr.uids_new, List.mem_append, List.mem_append] at hu'
  have hn : u ∈ news.map (·.uid) := (hu'.resolve_left hf).resolve_right hb
  rw [slot, slot, hr.new, hr.bringer, lookup_right hf, lookup_left (by rw [List.map_map]; exact hn),
    lookup_left hn, lookup_inherit]

end Replaced

theorem Refilled.each {db db' : Db} {oid parent : ℤ} {o : Object}
    (hr : db.Refilled db' oid parent o) {i : ℤ} {oi : Object} (hoi : db.objects i = some oi) :
    ∃ oi', db'.objects i = some oi' ∧ oi'.owner = oi.owner ∧ oi'.propdefs = oi.propdefs ∧
      oi'.kin.up = Function.update (fun _ => oi.kin.up) oid parent i := by
  obtain ⟨db1, ds, ns, os, cs, h1, -, -, hp⟩ := hr
  obtain ⟨l, ho1, hup⟩ := h1.each i oi hoi
  by_cases hi : i ∈ ds.map Prod.fst
  · obtain ⟨d, hd, rfl⟩ := List.mem_map.mp hi
    obtain ⟨o', ho', rfl⟩ := hp.on d hd _ ho1
    exact ⟨_, ho', rfl, rfl, hup⟩
  · exact ⟨_, (hp.off i hi).trans ho1, rfl, rfl, hup⟩

theorem Refilled.slot_off {db db' : Db} {oid parent : ℤ} {o : Object}
    (hr : db.Refilled db' oid parent o) {i : ℤ} (hi : ¬Below nothing db.kin i oid) (u : ℕ) :
    db'.slot i u = db.slot i u := by
  obtain ⟨db1, ds, ns, os, cs, h1, hv, -, hp⟩ := hr
  have hoff : i ∉ ds.map Prod.fst := fun hx => hi ((hv.mem i).mp hx).2
  rw [slot, slot, slots, hp.off i hoff, ← slots, h1.slots_eq]

/-- What a new parent means for the properties of the objects below. Property `u` is defined by
`a`; the ancestors of an object include it. -/
structure Rehung (db db' : Db) (oid parent : ℤ) : Prop where
  sound : db'.Sound
  each : ∀ i oi, db.objects i = some oi → ∃ oi', db'.objects i = some oi' ∧ oi'.owner = oi.owner ∧
    oi'.propdefs = oi.propdefs ∧ oi'.kin.up = Function.update (fun _ => oi.kin.up) oid parent i
  common : ∀ d a u, (db.objects d).isSome = true → Below nothing db.kin d oid → db.Defines a u →
    Below nothing db.kin d a → Below nothing db'.kin d a →
      ∃ pv, db.slot d u = some pv ∧ db'.slot d u = some pv
  gone : ∀ d a u, (db.objects d).isSome = true → Below nothing db.kin d oid → db.Defines a u →
    Below nothing db.kin d a → ¬Below nothing db'.kin d a →
      (∃ pv, db.slot d u = some pv) ∧ db'.slot d u = none
  come : ∀ d a u o', db'.objects d = some o' → Below nothing db.kin d oid → db.Defines a u →
    ¬Below nothing db.kin d a → Below nothing db'.kin d a → db.slot d u = none ∧
      ∃ pv, db'.slot o'.kin.up u = some pv ∧ db'.slot d u = some { pv with
        var := .clear
        owner := if pv.perms.chown then o'.owner else pv.owner }
  none : ∀ d a u, (db.objects d).isSome = true → Below nothing db.kin d oid → db.Defines a u →
    ¬Below nothing db.kin d a → ¬Below nothing db'.kin d a →
      db.slot d u = none ∧ db'.slot d u = none

section Rehung
variable {db : Db} (h : db.Sound) {oid : ℤ} {o : Object} (ho : db.objects oid = some o)
  {parent : ℤ} {db' : Db} (h' : db'.Sound) (hnot : ¬Below nothing db.kin parent oid)
  (hr : db.Refilled db' oid parent o)
include h ho h' hnot hr

omit h ho h' hnot in
theorem Refilled.defines {a : ℤ} {u : ℕ} (hu : db.Defines a u) : db'.Defines a u := by
  obtain ⟨oa, hoa, hp⟩ := hu
  obtain ⟨oa', hoa', -, hpd, -⟩ := hr.each hoa
  exact ⟨oa', hoa', hpd ▸ hp⟩

/-- The parent of an object has the slot that comes to the object. -/
theorem Refilled.come {d : ℤ} {od od' : Object} (hod : db.objects d = some od)
    (hod' : db'.objects d = some od') (hd : Below nothing db.kin d oid) {u : ℕ}
    (hu : u ∉ db.uids d) (hu' : u ∈ db'.uids d) :
    ∃ pv, db'.slot od'.kin.up u = some pv ∧ db'.slot d u = some (inherit od.owner pv) := by
  obtain ⟨_, hsame, -, hpd, hup⟩ := hr.each hod
  obtain rfl := Option.some.inj (hod'.symm.trans hsame)
  obtain ⟨front, gone, back, news, last, hrep⟩ := Refilled.parts h ho hnot hr hod hd
  have hslot := hrep.comes hu hu'
  by_cases hx : d = oid
  · subst hx
    rw [Function.update_self] at hup
    rw [hup, hr.slot_off hnot]
    obtain ⟨pv, hpv⟩ := slot_some hu'
    rw [hpv, eq_comm, Option.map_eq_some_iff] at hslot
    obtain ⟨pv', hpv', rfl⟩ := hslot
    exact ⟨pv', hpv', hpv⟩
  · -- the slot came to the parent too
    rw [Function.update_of_ne hx] at hup
    rw [h.order d od hod, List.mem_append, not_or] at hu
    rw [h'.order d od' hod', hpd, hup, List.mem_append] at hu'
    have hue := hu'.resolve_left hu.1
    rcases Relation.ReflTransGen.cases_head hd with hd|⟨e, he, hb⟩
    · exact absurd hd hx
    · obtain ⟨_, hod2, rfl, -⟩ := above_iff.mp he
      obtain rfl := Option.some.inj (hod.symm.trans hod2)
      have hs := (h.kin.above_isSome he).2
      rw [kin_isSome] at hs
      obtain ⟨oe, hoe⟩ := Option.isSome_iff_exists.mp hs
      obtain ⟨front, gone, back, news, last, hrep⟩ := Refilled.parts h ho hnot hr hoe hb
      obtain ⟨pv, hpv⟩ := slot_some hue
      have hpslot := hrep.comes hu.2 hue
      rw [hpv, eq_comm, Option.map_eq_some_iff] at hpslot
      obtain ⟨pv', hpv', rfl⟩ := hpslot
      refine ⟨inherit oe.owner pv', by rw [hup, hpv], ?_⟩
      rw [hslot, hpv', Option.map_some, inherit_inherit]

theorem Refilled.rehung : db.Rehung db' oid parent := by
  have hsome : ∀ {d : ℤ}, (db.objects d).isSome = true → (db'.objects d).isSome = true := by
    intro d hd
    obtain ⟨od, hod⟩ := Option.isSome_iff_exists.mp hd
    obtain ⟨od', hod', -⟩ := hr.each hod
    simp [hod']
  refine ⟨h', fun i oi hoi => hr.each hoi, ?_, ?_, ?_, ?_⟩
  · intro d a u hd hb hu ha ha'
    have hm := (h.slot_isSome hd hu).mpr ha
    have hm' := (h'.slot_isSome (hsome hd) (hr.defines hu)).mpr ha'
    obtain ⟨od, hod⟩ := Option.isSome_iff_exists.mp hd
    obtain ⟨front, gone, back, news, last, hrep⟩ := Refilled.parts h ho hnot hr hod hb
    obtain ⟨pv, hpv⟩ := slot_some hm
    exact ⟨pv, hpv, (hrep.kept h hm hm').trans hpv⟩
  · intro d a u hd hb hu ha ha'
    refine ⟨slot_some ((h.slot_isSome hd hu).mpr ha), slot_none ?_⟩
    exact fun hm => ha' ((h'.slot_isSome (hsome hd) (hr.defines hu)).mp hm)
  · intro d a u od' hod' hb hu ha ha'
    have hd : (db.objects d).isSome = true := by
      cases hn : db.objects d with
      | some _ => rfl
      | none =>
        obtain ⟨db1, ds, ns, os, cs, h1, -, -, hp⟩ := hr
        have := (hp.isSome d).trans (h1.isSome d)
        rw [hod', hn] at this
        cases this
    obtain ⟨od, hod⟩ := Option.isSome_iff_exists.mp hd
    have hm : u ∉ db.uids d := fun hx => ha ((h.slot_isSome hd hu).mp hx)
    have hm' := (h'.slot_isSome (hsome hd) (hr.defines hu)).mpr ha'
    obtain ⟨_, hsame, howner, -⟩ := hr.each hod
    obtain rfl := Option.some.inj (hod'.symm.trans hsame)
    refine ⟨slot_none hm, ?_⟩
    rw [howner]
    exact Refilled.come h ho h' hnot hr hod hod' hb hm hm'
  · intro d a u hd hb hu ha ha'
    refine ⟨slot_none ?_, slot_none ?_⟩
    · exact fun hm => ha ((h.slot_isSome hd hu).mp hm)
    · exact fun hm => ha' ((h'.slot_isSome (hsome hd) (hr.defines hu)).mp hm)

end Rehung

/-- A property defined at an object or below has the name of one that is defined at its parent to
be or above. -/
def Clashes (db : Db) (oid parent : ℤ) : Prop :=
  ∃ i j oi oj, db.objects i = some oi ∧ db.objects j = some oj ∧ Below nothing db.kin i oid ∧
    Below nothing db.kin parent j ∧ ∃ p ∈ oi.propdefs, ∃ q ∈ oj.propdefs,
      p.name.str.fold = q.name.str.fold

/-- A change of parents is refused only where names clash, and then changes nothing. One that is not
keeps the slots for the properties of all common ancestors, takes those of the old ancestors only
and brings clear ones for those of the new ancestors only. -/
theorem changeParent_rehung {db : Db} (h : db.Sound) {oid : ℤ} {o : Object}
    (ho : db.objects oid = some o) {parent : ℤ} (hnot : ¬Below nothing db.kin parent oid)
    (hdest : parent = nothing ∨ (db.objects parent).isSome = true) :
    ∃ b db', db.changeParent oid parent = .ok (b, db') ∧
      (b = false → db' = db ∧ db.Clashes oid parent) ∧ (b = true → db.Rehung db' oid parent) := by
  obtain ⟨⟨b, db'⟩, hr, ht, hcases⟩ := changeParent_refilled h ho hnot hdest
  refine ⟨b, db', hr, ?_, ?_⟩
  · rintro rfl
    rcases hcases with ⟨hb, -⟩|⟨he, hclash⟩
    · cases hb
    · exact ⟨(Prod.mk.inj he).2, hclash⟩
  · rintro rfl
    rcases hcases with ⟨-, hx⟩|⟨he, -⟩
    · exact Refilled.rehung h ho ht.sound hnot hx
    · cases he

/-- 4 goes from 2 to 3: `shape` is its own and `color` comes from both, `size` goes and `weight`
comes, to 5 with the owner of 5. -/
theorem changeParent_rehung_family : ∃ db', family.changeParent 4 3 = .ok (true, db') ∧
    family.Rehung db' 4 3 ∧ db'.slot 4 3 = some ⟨.int 40, 4, readable, 3⟩ ∧
    db'.slot 5 3 = some ⟨.clear, 5, readable, 3⟩ ∧ db'.slot 5 0 = some ⟨.clear, 1, readable, 0⟩ ∧
    family.slot 5 1 = some ⟨.int 51, 5, readable, 1⟩ ∧ db'.slot 5 1 = none ∧
    family.slot 5 2 = none ∧ db'.slot 5 2 = some ⟨.clear, 5, chowned, 2⟩ := by
  have hok : (family.changeParent 4 3).map (fun r => (r.1, r.2.slot 4 3, r.2.slot 5 3, r.2.slot 5 0,
      r.2.slot 5 1, r.2.slot 5 2)) = .ok (true, some ⟨.int 40, 4, readable, 3⟩,
        some ⟨.clear, 5, readable, 3⟩, some ⟨.clear, 1, readable, 0⟩, none,
        some ⟨.clear, 5, chowned, 2⟩) := rfl
  have hnot : ¬Below nothing family.kin 3 4 := by
    intro hb
    rcases Relation.ReflTransGen.cases_head hb with he|⟨i, hi, hb⟩
    · cases he
    · obtain ⟨o, ho, rfl, -⟩ := above_iff.mp hi
      obtain rfl := Option.some.inj ho
      rcases Relation.ReflTransGen.cases_head hb with he|⟨j, hj, -⟩
      · cases he
      · obtain ⟨o, ho, rfl, hn⟩ := above_iff.mp hj
        obtain rfl := Option.some.inj ho
        exact hn rfl
  obtain ⟨b, db', hr, -, hrehung⟩ := changeParent_rehung family_sound (o := shapedObject) rfl hnot (.inr rfl)
  rw [hr] at hok
  obtain ⟨hb, hrest⟩ := Prod.mk.inj (Except.ok.inj hok)
  obtain ⟨h43, hrest⟩ := Prod.mk.inj hrest
  obtain ⟨h53, hrest⟩ := Prod.mk.inj hrest
  obtain ⟨h50, hrest⟩ := Prod.mk.inj hrest
  obtain ⟨h51, h52⟩ := Prod.mk.inj hrest
  obtain rfl : b = true := hb
  exact ⟨db', hr, hrehung rfl, h43, h53, h50, rfl, h51, rfl, h52⟩

end Db
end LambdaMoo.Database
