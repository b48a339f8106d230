import LambdaMoo.Validate

/-!
# The repairs of the validation

The first phase clears the links that lead to no object and the next links of
objects that are nowhere. After it every link leads to an object or to none,
and it has changed nothing else.
-/

set_option autoImplicit false

namespace LambdaMoo.DbFile
open LambdaMoo.Database.Db (deref)

variable {P : Type}

namespace Table

/-- A link to no object is cleared. -/
def mend (t : Table P) (x : Objid) : Objid := if (t.find x).isSome then x else nothing

def mended (t : Table P) (o : Object P) : Object P :=
  {o with
    parent := t.mend o.parent
    child := t.mend o.child
    sibling := t.mend o.sibling
    location := t.mend o.location
    contents := t.mend o.contents
    next := if o.location = nothing then nothing else t.mend o.next}

/-- The table with the repairs of phase 1: links to no object and stray next links are cleared. -/
def repaired (t : Table P) : Table P := t.map (Option.map t.mended)

def linkAt (t : Table P) (l : Link) (oid : Objid) : Option Objid := (t.find oid).map (·.link l)

theorem ext_find {t t' : Table P} (ht : t.length < 2^31) (hl : t'.length = t.length)
    (h : ∀ i, t'.find i = t.find i) : t' = t := by
  apply List.ext_getElem?
  intro n
  by_cases hn : n < t.length
  · have hx := List.getElem?_eq_getElem hn
    have hn' : n < t'.length := hl ▸ hn
    have hx' := List.getElem?_eq_getElem hn'
    have := h (BitVec.ofNat 64 n)
    rw [find_ofNat ht hn hx, find_ofNat (hl ▸ ht) hn' hx'] at this
    rw [hx, hx', this]
  · rw [List.getElem?_eq_none (by omega), List.getElem?_eq_none (by omega)]

theorem find_repaired (t : Table P) (i : Objid) : t.repaired.find i = (t.find i).map t.mended :=
  t.find_map i _

theorem length_repaired (t : Table P) : t.repaired.length = t.length := List.length_map _

theorem mend_eq (t : Table P) (x : Objid) :
    t.mend x = nothing ∨ (t.repaired.find (t.mend x)).isSome = true := by
  rw [mend]
  split
  · next h => exact .inr (by rwa [find_repaired, Option.isSome_map])
  · exact .inl rfl

/-- Every link of an object leads to an object, or to none. -/
def Linked (t : Table P) : Prop :=
  ∀ i o, t.find i = some o → ∀ l, o.link l = nothing ∨ (t.find (o.link l)).isSome = true

theorem linked_repaired (t : Table P) : t.repaired.Linked := by
  intro i o' ho' l
  rw [find_repaired] at ho'
  obtain ⟨o, -, rfl⟩ := Option.map_eq_some_iff.mp ho'
  cases l with
  | parent => exact t.mend_eq o.parent
  | child => exact t.mend_eq o.child
  | sibling => exact t.mend_eq o.sibling
  | location => exact t.mend_eq o.location
  | contents => exact t.mend_eq o.contents
  | next =>
    simp only [mended, Object.link]
    split
    · exact .inl rfl
    · exact t.mend_eq o.next

theorem Linked.closed {t : Table P} (ht : t.Linked) (l : Link) :
    Chase.Closed nothing (t.linkAt l) fun i => (t.find i).isSome = true := by
  intro i hi
  obtain ⟨o, ho⟩ := Option.isSome_iff_exists.mp hi
  exact ⟨o.link l, by rw [linkAt, ho]; rfl, ht i o ho l⟩

theorem fits (t : Table P) : Chase.Fits (fun i => (t.find i).isSome = true) t.fuel := by
  intro xs hn hx
  apply t.heap_small kinship xs hn
  intro x hmem
  rw [heap, Option.isSome_map]
  exact hx x hmem

theorem linkAt_nothing (t : Table P) (l : Link) : t.linkAt l nothing = none := by
  rw [linkAt, find_nothing]
  rfl

end Table

namespace Validation

/-- One object is changed, if it is there. -/
structure Amends (oid : Objid) (f : Object P → Object P) (v v' : Validation P) : Prop where
  length : v'.objects.length = v.objects.length
  find : ∀ i, v'.objects.find i = if i = oid then (v.objects.find i).map f else v.objects.find i
  broken : v'.broken = v.broken

section Repairs
variable {v v1 v2 : Validation P} {oid : Objid} {f g : Object P → Object P}

theorem Amends.same (h : ∀ o, v.objects.find oid = some o → f o = o) : Amends oid f v v where
  length := rfl
  broken := rfl
  find i := by
    split
    · next hi =>
      subst hi
      cases ho : v.objects.find i with
      | none => rfl
      | some o => rw [Option.map_some, h o ho]
    · rfl

theorem Amends.modify (h : ∀ o, v.objects.find oid = some o → f o = g o) :
    Amends oid f v (v.modify oid g) where
  length := List.length_modify _ _ _
  broken := rfl
  find i := by
    rw [Validation.modify, Table.find_modify]
    split
    · next hi =>
      subst hi
      cases ho : v.objects.find i with
      | none => rfl
      | some o => rw [Option.map_some, Option.map_some, h o ho]
    · rfl

theorem Amends.trans (h1 : Amends oid f v v1) (h2 : Amends oid g v1 v2) :
    Amends oid (g ∘ f) v v2 where
  length := h2.length.trans h1.length
  broken := h2.broken.trans h1.broken
  find i := by
    rw [h2.find, h1.find]
    split
    · rw [Option.map_map]
    · rfl

theorem Amends.isSome (h : Amends oid f v v1) (i : Objid) :
    (v1.objects.find i).isSome = (v.objects.find i).isSome := by
  rw [h.find]
  split
  · rw [Option.isSome_map]
  · rfl

theorem setLink_link (o : Object P) (l : Link) : o.setLink (o.link l) l = o := by
  cases l <;> rfl

theorem checkValid_amends (t : Table P) (h : ∀ i, (v.objects.find i).isSome = (t.find i).isSome)
    (l : Link) : Amends oid (fun o => o.setLink (t.mend (o.link l)) l) v (checkValid oid v l) := by
  rw [checkValid]
  split
  · next hn =>
    exact .same fun o ho => by simp [hn] at ho
  · next o ho =>
    split
    · next hbad =>
      have hm : Amends oid (fun o => o.setLink (t.mend (o.link l)) l) v
          (v.modify oid (·.setLink nothing l)) := by
        refine .modify fun o' ho' => ?_
        obtain rfl := Option.some.inj (ho.symm.trans ho')
        have hnone : (t.find (o.link l)).isSome = false := by
          rw [← h]
          simpa using hbad.2
        rw [Table.mend, hnone]
        rfl
      exact ⟨hm.length, hm.find, hm.broken⟩
    · next hgood =>
      refine .same fun o' ho' => ?_
      obtain rfl := Option.some.inj (ho.symm.trans ho')
      have hkeep : t.mend (o.link l) = o.link l := by
        rw [Table.mend]
        split
        · rfl
        · next hdead =>
          by_contra hne
          refine hgood ⟨fun heq => hne heq.symm, ?_⟩
          rw [← h] at hdead
          simpa using hdead
      rw [hkeep, setLink_link]

theorem checkNext_amends : Amends oid
    (fun o => {o with next := if o.location = nothing then nothing else o.next}) v
    (checkNext oid v) := by
  rw [checkNext]
  split
  · next hn =>
    exact .same fun o ho => by simp [hn] at ho
  · next o ho =>
    split
    · next hbad =>
      have hm : Amends oid
          (fun o => {o with next := if o.location = nothing then nothing else o.next}) v
          (v.modify oid (·.setLink nothing .next)) := by
        refine .modify fun o' ho' => ?_
        obtain rfl := Option.some.inj (ho.symm.trans ho')
        rw [if_pos hbad.1]
        rfl
      exact ⟨hm.length, hm.find, hm.broken⟩
    · next hgood =>
      refine .same fun o' ho' => ?_
      obtain rfl := Option.some.inj (ho.symm.trans ho')
      by_cases hl : o.location = nothing
      · have hnext : o.next = nothing := by
          by_contra hne
          exact hgood ⟨hl, hne⟩
        rw [if_pos hl, ← hnext]
      · rw [if_neg hl]

/-- The checks of all links of an object. -/
theorem links_amends (t : Table P) (ls : List Link)
    (h : ∀ i, (v.objects.find i).isSome = (t.find i).isSome) :
    Amends oid (fun o => ls.foldl (fun o l => o.setLink (t.mend (o.link l)) l) o) v
      (ls.foldl (checkValid oid) v) := by
  induction ls generalizing v with
  | nil => exact .same fun _ _ => rfl
  | cons l ls ih =>
    have h1 : Amends oid (fun o => o.setLink (t.mend (o.link l)) l) v (checkValid oid v l) :=
      checkValid_amends t h l
    exact h1.trans (ih fun i => (h1.isSome i).trans (h i))

theorem mend_nothing (t : Table P) : t.mend nothing = nothing := by
  rw [Table.mend, Table.find_nothing]
  rfl

theorem step_amends (t : Table P) (h : ∀ i, (v.objects.find i).isSome = (t.find i).isSome) :
    Amends oid t.mended v (links.foldl (checkValid oid) (v.checkNext oid)) := by
  have h1 : Amends oid
      (fun o => {o with next := if o.location = nothing then nothing else o.next}) v
      (checkNext oid v) := checkNext_amends
  have h2 := h1.trans (links_amends t links fun i => (h1.isSome i).trans (h i))
  have heq : t.mended = (fun o => links.foldl (fun o l => o.setLink (t.mend (o.link l)) l) o) ∘
      fun o => {o with next := if o.location = nothing then nothing else o.next} := by
    funext o
    by_cases hl : o.location = nothing
    · simp [Table.mended, links, Object.setLink, Object.link, hl, mend_nothing]
    · simp [Table.mended, links, Object.setLink, Object.link, hl]
  rwa [heq]

/-- The loop of phase 1 repairs the objects it has been through. -/
theorem foldl_amends (t : Table P) {ids : List Objid} (hn : ids.Nodup)
    (h : ∀ i, (v.objects.find i).isSome = (t.find i).isSome) :
    ∃ v', ids.foldl (fun v oid => links.foldl (checkValid oid) (v.checkNext oid)) v = v' ∧
      v'.objects.length = v.objects.length ∧ v'.broken = v.broken ∧
      ∀ i, v'.objects.find i =
        if i ∈ ids then (v.objects.find i).map t.mended else v.objects.find i := by
  induction ids generalizing v with
  | nil => exact ⟨v, rfl, rfl, rfl, by simp⟩
  | cons oid ids ih =>
    have h1 : Amends oid t.mended v (links.foldl (checkValid oid) (v.checkNext oid)) :=
      step_amends t h
    obtain ⟨hnot, hn⟩ := List.nodup_cons.mp hn
    obtain ⟨v', hv', hlen, hbroken, hfind⟩ := ih hn fun i => (h1.isSome i).trans (h i)
    refine ⟨v', hv', hlen.trans h1.length, hbroken.trans h1.broken, fun i => ?_⟩
    rw [hfind, h1.find]
    by_cases hi : i = oid
    · subst hi
      simp [hnot]
    · simp [hi]

end Repairs

theorem objids_nodup {t : Table P} (ht : t.length < 2^31) : t.objids.Nodup := by
  refine List.Nodup.map_on ?_ List.nodup_range
  intro a ha b hb heq
  rw [List.mem_range] at ha hb
  have := congrArg BitVec.toNat heq
  rwa [BitVec.toNat_ofNat, BitVec.toNat_ofNat, Nat.mod_eq_of_lt (by omega),
    Nat.mod_eq_of_lt (by omega)] at this

theorem phase1_repairs {t : Table P} (ht : t.length < 2^31) :
    (phase1 (start t)).objects = t.repaired ∧ (phase1 (start t)).broken = false := by
  obtain ⟨v', hv', hlen, hbroken, hfind⟩ :=
    foldl_amends (v := start t) t (objids_nodup ht) fun _ => rfl
  have hobj : v'.objects = t.repaired := by
    refine Table.ext_find (by rwa [Table.length_repaired]) (hlen.trans (t.length_repaired).symm) ?_
    intro i
    rw [hfind, Table.find_repaired]
    split
    · rfl
    · next hnot =>
      have hnone : t.find i = none := by
        cases ho : t.find i with
        | none => rfl
        | some o => exact absurd (Table.mem_objids ho) hnot
      rw [show (start t).objects = t from rfl, hnone]
      rfl
  rw [phase1]
  rw [show (start t).objects.objids.foldl
    (fun v oid => links.foldl (checkValid oid) (v.checkNext oid)) (start t) = v' from hv']
  split
  · exact ⟨hobj, hbroken⟩
  · exact ⟨hobj, hbroken⟩

end Validation

end LambdaMoo.DbFile
