import LambdaMoo.Names
import LambdaMoo.Slots

/-!
# Sound databases

Parents and locations form forests, slots are in order, no name is defined
twice from an object upwards, and an object has a value of its own for every
property it defines.
-/

set_option autoImplicit false

namespace LambdaMoo.Database

/-- The definition a slot was made for, and whether it is clear. -/
def Pval.mark (pv : Pval) : ℕ × Bool := (pv.uid, decide (pv.var.type = .clear))

def Object.defs (o : Object) : ℤ × List Propdef := (o.kin.up, o.propdefs)

/-- What the arrangement of the slots depends on. -/
def Object.face (o : Object) : (ℤ × List Propdef) × List (ℕ × Bool) :=
  (o.defs, o.propval.map Pval.mark)

namespace Db

open Forest

/-- Definitions are told apart by their marks everywhere, and by their names up to case along every
line of ancestors. -/
structure Named (db : Db) : Prop where
  apart : ∀ i j o o', db.objects i = some o → db.objects j = some o' →
    Below nothing db.kin i j → ∀ p ∈ o.propdefs, ∀ q ∈ o'.propdefs,
      p.name.str.fold = q.name.str.fold → i = j ∧ p = q
  made : ∀ i o, db.objects i = some o → ∀ p ∈ o.propdefs, p.uid < db.nextUid
  once : ∀ i o, db.objects i = some o → (o.propdefs.map (·.uid)).Nodup
  single : ∀ i j o o', db.objects i = some o → db.objects j = some o' →
    ∀ p ∈ o.propdefs, ∀ q ∈ o'.propdefs, p.uid = q.uid → i = j

/-- An object has values of its own for the properties it defines. -/
def OwnSet (db : Db) : Prop :=
  ∀ i o, db.objects i = some o → ∀ pv ∈ o.propval.take o.propdefs.length, pv.var.type ≠ .clear

/-- Both hierarchies are in order. -/
structure Forested (db : Db) : Prop where
  kin : IsForest nothing db.kin
  place : IsForest nothing db.place

structure Sound (db : Db) : Prop where
  kin : IsForest nothing db.kin
  place : IsForest nothing db.place
  named : db.Named
  order : db.InOrder
  own : db.OwnSet

theorem Sound.forested {db : Db} (h : db.Sound) : db.Forested := ⟨h.kin, h.place⟩

theorem propdefs_le {db : Db} (h : db.Sound) {i : ℤ} {o : Object} (ho : db.objects i = some o) :
    o.propdefs.length ≤ (db.uids i).length := by
  rw [h.order i o ho, List.length_append, List.length_map]
  exact Nat.le_add_right _ _

section Defs
variable {db db' : Db}
  (hdefs : ∀ i, (db'.objects i).map Object.defs = (db.objects i).map Object.defs)
include hdefs

theorem defs_some {i : ℤ} {o' : Object} (ho' : db'.objects i = some o') :
    ∃ o, db.objects i = some o ∧ o'.kin.up = o.kin.up ∧ o'.propdefs = o.propdefs := by
  have hs := hdefs i
  rw [ho', Option.map_some, eq_comm, Option.map_eq_some_iff] at hs
  obtain ⟨o, ho, he⟩ := hs
  obtain ⟨hu, hp⟩ := Prod.mk.inj he
  exact ⟨o, ho, hu.symm, hp.symm⟩

theorem defs_below : Below nothing db'.kin = Below nothing db.kin := by
  have key : ∀ {a b : Db}, (∀ i, (a.objects i).map Object.defs = (b.objects i).map Object.defs) →
      ∀ i j, Above nothing a.kin i j → Above nothing b.kin i j := by
    intro a b hab i j
    rw [above_iff, above_iff]
    rintro ⟨o', ho', hup, hn⟩
    obtain ⟨o, ho, hu, -⟩ := defs_some hab ho'
    exact ⟨o, ho, hu.symm.trans hup, hn⟩
  have he : Above nothing db'.kin = Above nothing db.kin := by
    funext i j
    exact propext ⟨key hdefs i j, key (fun i => (hdefs i).symm) i j⟩
  rw [Below, Below, he]

theorem Named.congr (h : db.Named) (hu : db.nextUid ≤ db'.nextUid) : db'.Named := by
  refine ⟨fun i j o o' ho ho' hb p hp q hq => ?_, fun i o ho p hp => ?_, fun i o ho => ?_,
    fun i j o o' ho ho' p hp q hq => ?_⟩
  · obtain ⟨o1, ho1, -, he1⟩ := defs_some hdefs ho
    obtain ⟨o2, ho2, -, he2⟩ := defs_some hdefs ho'
    rw [defs_below hdefs] at hb
    exact h.apart i j o1 o2 ho1 ho2 hb p (he1 ▸ hp) q (he2 ▸ hq)
  · obtain ⟨o1, ho1, -, he1⟩ := defs_some hdefs ho
    exact lt_of_lt_of_le (h.made i o1 ho1 p (he1 ▸ hp)) hu
  · obtain ⟨o1, ho1, -, he1⟩ := defs_some hdefs ho
    rw [he1]
    exact h.once i o1 ho1
  · obtain ⟨o1, ho1, -, he1⟩ := defs_some hdefs ho
    obtain ⟨o2, ho2, -, he2⟩ := defs_some hdefs ho'
    exact h.single i j o1 o2 ho1 ho2 p (he1 ▸ hp) q (he2 ▸ hq)

end Defs

theorem Named.like {db db' : Db} (h : db.Named) (hl : db.Like db')
    (hu : db.nextUid ≤ db'.nextUid) : db'.Named := by
  refine h.congr (fun i => ?_) hu
  have := congrArg (Option.map fun s => (s.1.up, s.2.2)) (hl.shape i)
  rw [Option.map_map, Option.map_map] at this
  exact this

section Face
variable {db db' : Db}
  (hface : ∀ i, (db'.objects i).map Object.face = (db.objects i).map Object.face)
include hface

theorem face_defs (i : ℤ) : (db'.objects i).map Object.defs = (db.objects i).map Object.defs := by
  have := congrArg (Option.map Prod.fst) (hface i)
  rw [Option.map_map, Option.map_map] at this
  exact this

theorem face_some {i : ℤ} {o' : Object} (ho' : db'.objects i = some o') :
    ∃ o, db.objects i = some o ∧ o'.kin.up = o.kin.up ∧ o'.propdefs = o.propdefs ∧
      o'.propval.map Pval.mark = o.propval.map Pval.mark := by
  have hs := hface i
  rw [ho', Option.map_some, eq_comm, Option.map_eq_some_iff] at hs
  obtain ⟨o, ho, he⟩ := hs
  obtain ⟨hd, hm⟩ := Prod.mk.inj he
  obtain ⟨hu, hp⟩ := Prod.mk.inj hd
  exact ⟨o, ho, hu.symm, hp.symm, hm.symm⟩

theorem face_uids (i : ℤ) : db'.uids i = db.uids i := by
  cases ho' : db'.objects i with
  | none =>
    have hs := hface i
    rw [ho', Option.map_none, eq_comm, Option.map_eq_none_iff] at hs
    rw [uids_none ho', uids_none hs]
  | some o' =>
    obtain ⟨o, ho, -, -, he⟩ := face_some hface ho'
    have := congrArg (List.map Prod.fst) he
    rw [List.map_map, List.map_map] at this
    rw [uids_some ho, uids_some ho']
    exact this

/-- A change that keeps the parents, the definitions and the marks of the slots. -/
theorem Sound.face (h : db.Sound) (hk : IsForest nothing db'.kin) (hp : IsForest nothing db'.place)
    (hu : db.nextUid ≤ db'.nextUid) : db'.Sound := by
  refine ⟨hk, hp, h.named.congr (face_defs hface) hu, fun i o' ho' => ?_, fun i o' ho' pv hpv => ?_⟩
  · obtain ⟨o, ho, hup, hpd, -⟩ := face_some hface ho'
    rw [face_uids hface, face_uids hface, hup, hpd]
    exact h.order i o ho
  · obtain ⟨o, ho, -, hpd, hm⟩ := face_some hface ho'
    have hmark : pv.mark ∈ (o.propval.take o.propdefs.length).map Pval.mark := by
      rw [List.map_take, ← hm, ← List.map_take, ← hpd]
      exact List.mem_map_of_mem hpv
    obtain ⟨pv', hpv', he⟩ := List.mem_map.mp hmark
    have := h.own i o ho pv' hpv'
    have hc := congrArg Prod.snd he
    simp only [Pval.mark, decide_eq_decide] at hc
    exact fun hcl => this (hc.mpr hcl)

end Face

section Search
variable {db : Db}

theorem anyM_ok {α : Type} {f : α → Result Bool} {g : α → Bool} {xs : List α}
    (h : ∀ x ∈ xs, f x = .ok (g x)) : xs.anyM f = .ok (xs.any g) := by
  induction xs with
  | nil => rfl
  | cons x xs ih =>
    rw [List.anyM, h x (by simp), List.any_cons]
    cases g x with
    | true => rfl
    | false => exact ih fun y hy => h y (by simp [hy])

theorem allM_ok {α : Type} {f : α → Result Bool} {g : α → Bool} {xs : List α}
    (h : ∀ x ∈ xs, f x = .ok (g x)) : xs.allM f = .ok (xs.all g) := by
  induction xs with
  | nil => rfl
  | cons x xs ih =>
    rw [List.allM, h x (by simp), List.all_cons]
    cases g x with
    | true => exact ih fun y hy => h y (by simp [hy])
    | false => rfl

theorem object_ok {i : ℤ} {o : Object} (h : db.objects i = some o) : db.object i = .ok o := by
  rw [object, db.find_eq, h]
  rfl

theorem definedAtOrBelow_eq (hf : IsForest nothing db.kin) {i : ℤ}
    (hi : (db.objects i).isSome = true) (name : CStr) :
    ∃ b, db.definedAtOrBelow name i = .ok b ∧ (b = true ↔ ∃ d o, db.objects d = some o ∧
      Below nothing db.kin d i ∧ ∃ p ∈ o.propdefs, p.name.str.fold = name.fold) := by
  obtain ⟨ds, hds, hv⟩ := subtree_eq hf 0 hi
  let g : ℤ × ℕ → Bool := fun d =>
    (db.objects d.1).elim false fun o => o.propdefs.any (·.named name)
  have hg : ∀ d ∈ ds, (do return (← db.object d.1).propdefs.any (·.named name)) = Except.ok (g d) := by
    intro d hd
    have := ((hv.mem d.1).mp (List.mem_map_of_mem hd)).1
    obtain ⟨o, ho⟩ := Option.isSome_iff_exists.mp this
    rw [object_ok ho]
    simp only [g, ho, Option.elim_some]
    rfl
  refine ⟨ds.any g, ?_, ?_⟩
  · rw [definedAtOrBelow]
    exact bind_ok.mpr ⟨ds, hds, anyM_ok hg⟩
  · rw [List.any_eq_true]
    constructor
    · rintro ⟨d, hd, hgd⟩
      have hm := (hv.mem d.1).mp (List.mem_map_of_mem hd)
      obtain ⟨o, ho⟩ := Option.isSome_iff_exists.mp hm.1
      simp only [g, ho, Option.elim_some, List.any_eq_true] at hgd
      obtain ⟨p, hp, hn⟩ := hgd
      exact ⟨d.1, o, ho, hm.2, p, hp, (p.named_iff name).mp hn⟩
    · rintro ⟨d, o, ho, hb, p, hp, hn⟩
      obtain ⟨e, he, rfl⟩ := List.mem_map.mp ((hv.mem d).mpr ⟨by simp [ho], hb⟩)
      refine ⟨e, he, ?_⟩
      simp only [g, ho, Option.elim_some, List.any_eq_true]
      exact ⟨p, hp, (p.named_iff name).mpr hn⟩

theorem findSlot_none {name : CStr} {n : ℕ} {chain : List (ℤ × Object)}
    (h : findSlot name n chain = none) :
    ∀ a ∈ chain, ∀ p ∈ a.2.propdefs, p.name.str.fold ≠ name.fold := by
  induction chain generalizing n with
  | nil => simp
  | cons a rest ih =>
    rw [findSlot] at h
    cases hi : a.2.propdefs.findIdx? (·.named name) with
    | some i =>
      simp only [hi] at h
      cases h
    | none =>
      simp only [hi] at h
      intro b hb p hp he
      rcases List.mem_cons.mp hb with rfl|hb
      · rw [List.findIdx?_eq_none_iff] at hi
        have := hi p hp
        rw [(p.named_iff name).mpr he] at this
        cases this
      · exact ih h b hb p hp he

/-- A search up the ancestors always ends, and finds nothing only where nothing is. -/
theorem findProperty_eq (hf : IsForest nothing db.kin) (i : ℤ) (name : CStr) :
    ∃ found, db.findProperty i name = .ok found ∧ (found = none → ∀ j o, db.objects j = some o →
      (db.objects i).isSome = true → Below nothing db.kin i j → ∀ p ∈ o.propdefs,
        p.name.str.fold ≠ name.fold) := by
  rw [findProperty]
  cases hb : builtIn name with
  | some b => exact ⟨_, rfl, by simp⟩
  | none =>
    obtain ⟨chain, hc, hl⟩ := ancestors_eq hf i
    simp only [hc]
    cases hs : findSlot name 0 chain with
    | some found => exact ⟨some (.slot found.1 found.2), by simp [hs, bind, Except.bind]; rfl, by simp⟩
    | none =>
      refine ⟨none, by simp [hs, bind, Except.bind]; rfl, fun _ j o ho hi hb' => ?_⟩
      exact findSlot_none hs (j, o) ((hl.mem hf).mpr ⟨ho, hi, hb'⟩)

end Search

end Db
end LambdaMoo.Database
