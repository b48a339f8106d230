import LambdaMoo.Patches

/-!
# The slots of objects

A slot knows the definition it was made for. The slots of an object are in
order when those of its own definitions come first and are followed by slots
for the same definitions as its parent's, in the same order.
-/

set_option autoImplicit false

namespace LambdaMoo.Database
namespace Db

open Forest

/-- The definitions that the slots of an object were made for. -/
def uids (db : Db) (i : ℤ) : List ℕ :=
  match db.objects i with
  | some o => o.propval.map (·.uid)
  | none => []

def InOrder (db : Db) : Prop :=
  ∀ i o, db.objects i = some o → db.uids i = o.propdefs.map (·.uid)++db.uids o.kin.up

section Order
variable {db : Db}

theorem uids_some {i : ℤ} {o : Object} (h : db.objects i = some o) :
    db.uids i = o.propval.map (·.uid) := by
  simp [uids, h]

theorem uids_none {i : ℤ} (h : db.objects i = none) : db.uids i = [] := by simp [uids, h]

theorem uids_length {i : ℤ} {o : Object} (h : db.objects i = some o) :
    (db.uids i).length = o.propval.length := by
  rw [uids_some h, List.length_map]

section Ordered
variable {i : ℤ} {chain : List (ℤ × Object)} (hl : db.Lineage i chain)
  (h : ∀ a ∈ chain, db.uids a.1 = a.2.propdefs.map (·.uid)++db.uids a.2.kin.up)
include hl h

theorem Lineage.uids : db.uids i = chain.flatMap fun a => a.2.propdefs.map (·.uid) := by
  induction hl with
  | nil hn => rw [uids_none hn, List.flatMap_nil]
  | cons ho _ ih =>
    rw [h _ List.mem_cons_self, ih fun a ha => h a (List.mem_cons_of_mem _ ha), List.flatMap_cons]

theorem Lineage.uids_tail {a : ℤ × Object} (ha : a ∈ chain) :
    ∃ pre, db.uids i = pre++db.uids a.1 := by
  induction hl with
  | nil => simp at ha
  | @cons i o rest ho _ ih =>
    rcases List.mem_cons.mp ha with rfl|ha
    · exact ⟨[], rfl⟩
    · obtain ⟨pre, hpre⟩ := ih (fun a ha => h a (List.mem_cons_of_mem _ ha)) ha
      refine ⟨o.propdefs.map (·.uid)++pre, ?_⟩
      rw [h _ List.mem_cons_self, hpre, List.append_assoc]

theorem Lineage.count (hf : IsForest nothing db.kin) :
    db.countProperties i = .ok (db.uids i).length := by
  rw [hl.countProperties hf, hl.uids h, List.length_flatMap]
  simp

end Ordered

theorem InOrder.mem (h : db.InOrder) {i : ℤ} {chain : List (ℤ × Object)} (hl : db.Lineage i chain) :
    ∀ a ∈ chain, db.uids a.1 = a.2.propdefs.map (·.uid)++db.uids a.2.kin.up := by
  induction hl with
  | nil => simp
  | cons ho _ ih =>
    intro a ha
    rcases List.mem_cons.mp ha with rfl|ha
    · exact h _ _ ho
    · exact ih a ha

/-- There is a slot for each definition on an object or above. -/
theorem InOrder.countProperties (h : db.InOrder) (hf : IsForest nothing db.kin) (i : ℤ) :
    db.countProperties i = .ok (db.uids i).length := by
  obtain ⟨chain, -, hl⟩ := ancestors_eq hf i
  exact hl.count (h.mem hl) hf

/-- The definers between a descendant and the object where a walk began. -/
theorem InOrder.visits (h : db.InOrder) {root : ℤ} {pos : ℕ} {ds : List (ℤ × ℕ)}
    (hv : db.Visits root pos ds) (hpos : pos ≤ (db.uids root).length) :
    ∀ d ∈ ds, d.2 ≤ (db.uids d.1).length ∧
      (db.uids d.1).drop d.2 = (db.uids root).drop pos := by
  have key : ∀ pre post, ds = pre++post → ∀ d ∈ pre, d.2 ≤ (db.uids d.1).length ∧
      (db.uids d.1).drop d.2 = (db.uids root).drop pos := by
    intro pre
    induction pre using List.reverseRecOn with
    | nil => simp
    | append_singleton pre d ih =>
      intro post hds e he
      rw [List.append_assoc, List.singleton_append] at hds
      have ih := ih (d::post) hds
      rcases List.mem_append.mp he with he|he
      · exact ih e he
      · obtain rfl := List.mem_singleton.mp he
        rcases hv.order pre e post hds with rfl|⟨o, p, ho, hp, hup, -, hoff⟩
        · exact ⟨hpos, rfl⟩
        · obtain ⟨hle, hd⟩ := ih p hp
          rw [h e.1 o ho, hup, hoff]
          refine ⟨by simp [hle], ?_⟩
          rw [← hd, List.drop_append, List.drop_of_length_le (by simp)]
          simp
  exact key ds [] (by simp)

/-- The slots stay in order when those of an object and of its descendants get the same new end. -/
theorem InOrder.retail (h : db.InOrder) {db' : Db} {root : ℤ} {pos : ℕ} {ds : List (ℤ × ℕ)}
    {tail : List ℕ} (hv : db.Visits root pos ds)
    (hsome : ∀ i, (db'.objects i).isSome = (db.objects i).isSome)
    (hsame : ∀ i o o', i ≠ root → db.objects i = some o → db'.objects i = some o' →
      o'.kin.up = o.kin.up ∧ o'.propdefs = o.propdefs)
    (hoff : ∀ i, i ∉ ds.map Prod.fst → db'.uids i = db.uids i)
    (hon : ∀ d ∈ ds, db'.uids d.1 = (db.uids d.1).take d.2++tail)
    (hroot : ∀ o', db'.objects root = some o' →
      db'.uids root = o'.propdefs.map (·.uid)++db'.uids o'.kin.up) : db'.InOrder := by
  intro i o' ho'
  by_cases hi : i = root
  · subst hi
    exact hroot o' ho'
  · have hs := hsome i
    rw [ho', Option.isSome_some] at hs
    obtain ⟨o, ho⟩ := Option.isSome_iff_exists.mp hs.symm
    obtain ⟨hup, hp⟩ := hsame i o o' hi ho ho'
    rw [hup, hp]
    by_cases hm : i ∈ ds.map Prod.fst
    · obtain ⟨d, hd, rfl⟩ := List.mem_map.mp hm
      obtain ⟨pre, post, hds⟩ := List.append_of_mem hd
      rcases hv.order pre d post hds with rfl|⟨o1, e, ho1, he, heup, -, hoffset⟩
      · exact absurd rfl hi
      · obtain rfl := Option.some.inj (ho.symm.trans ho1)
        have hde : e ∈ ds := by
          rw [hds]
          exact List.mem_append_left _ he
        rw [hon d hd, h d.1 o ho, heup, hon e hde, hoffset, List.take_append]
        simp
    · have hup' : o.kin.up ∉ ds.map Prod.fst := by
        intro hup'
        rw [hv.mem] at hup'
        apply hm
        rw [hv.mem]
        refine ⟨by simp [ho], .head (above_iff.mpr ⟨o, ho, rfl, ?_⟩) hup'.2⟩
        intro hn
        rw [hn, nothing_free] at hup'
        cases hup'.1
      rw [hoff i hm, hoff _ hup', h i o ho]

end Order

end Db
end LambdaMoo.Database
