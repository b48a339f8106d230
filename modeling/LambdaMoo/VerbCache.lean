import LambdaMoo.Names
import LambdaMoo.PropertyRename
import LambdaMoo.Verbs

/-!
# The verb cache

What an entry of the cache remembers is what a search from its key finds. That
stays so for as long as no parent and no verb changes, those of an object
without verbs and children apart: no search from a key goes through it.
-/

set_option autoImplicit false

namespace LambdaMoo.Database

theorem scanName_fold (star : Star) (v : Str) {w w' : Str} (h : fold w = fold w') :
    scanName star v w = scanName star v w' := by
  induction v generalizing star w w' with
  | nil =>
    cases w <;> cases w' <;> simp [fold] at h <;> simp [scanName]
  | cons c v ih =>
    rw [scanName.eq_def, scanName.eq_def star (c::v) w']
    dsimp only
    cases w with
    | nil =>
      cases w' with
      | nil => rfl
      | cons d' w' => simp [fold] at h
    | cons d w =>
      cases w' with
      | nil => simp [fold] at h
      | cons d' w' =>
        have hall : ∀ s, scanName s v (d::w) = scanName s v (d'::w') := fun s => ih s h
        rw [fold, fold, List.map_cons, List.map_cons, List.cons.injEq] at h
        dsimp only
        rw [hall, h.1, ih star h.2]
        simp

theorem verbcasecmp_fold (verb : Str) {w w' : Str} (h : fold w = fold w') :
    verbcasecmp verb w = verbcasecmp verb w' := by
  fun_induction verbcasecmp verb w with
  | case1 => rw [verbcasecmp]
  | case2 c v hs =>
    rw [verbcasecmp, ← scanName_fold .none (c::v) h, if_pos hs]
  | case3 c v hs ih =>
    rw [verbcasecmp.eq_def _ w']
    dsimp only
    rw [← scanName_fold .none (c::v) h, if_neg hs, ih]

/-- Whether a search for a verb takes this one. -/
def callable (verb : CStr) (v : ℕ × CStr × Bool) : Bool :=
  verbcasecmp v.2.1.str verb.str && v.2.2

theorem findVerbdefByName_verbs (o : Object) (verb : CStr) :
    (findVerbdefByName o verb true).map (·.ptr) =
      (o.verbs.find? (callable verb)).map Prod.fst := by
  rw [findVerbdefByName, Object.verbs, List.find?_map, Option.map_map]
  rfl

theorem verbs_nil (o : Object) : o.verbs = [] ↔ o.verbdefs = [] := by
  rw [Object.verbs, List.map_eq_nil_iff]

theorem searchVerb_cons (verb : CStr) (a : ℤ × Object) (rest : List (ℤ × Object)) :
    searchVerb verb (a::rest) = ((a.2.verbs.find? (callable verb)).map fun v => (a.1, v.1)).or
      (searchVerb verb rest) := by
  have h := findVerbdefByName_verbs a.2 verb
  rw [searchVerb]
  cases hv : findVerbdefByName a.2 verb true with
  | none =>
    rw [hv, Option.map_none, eq_comm, Option.map_eq_none_iff] at h
    rw [h]
    rfl
  | some v =>
    rw [hv, Option.map_some] at h
    obtain ⟨x, hx, he⟩ := Option.map_eq_some_iff.mp h.symm
    rw [hx, Option.map_some, Option.some_or, he]

/-- A search sees the numbers of the objects and their verbs. -/
theorem searchVerb_congr (verb : CStr) {xs ys : List (ℤ × Object)}
    (h : xs.map (fun a => (a.1, a.2.verbs)) = ys.map fun a => (a.1, a.2.verbs)) :
    searchVerb verb xs = searchVerb verb ys := by
  induction xs generalizing ys with
  | nil => rw [List.map_eq_nil_iff.mp h.symm]
  | cons x xs ih =>
    cases ys with
    | nil => simp at h
    | cons y ys =>
      rw [List.map_cons, List.map_cons, List.cons.injEq, Prod.mk.injEq] at h
      rw [searchVerb_cons, searchVerb_cons, h.1.1, h.1.2, ih h.2]

theorem searchVerb_fold {verb verb' : CStr} (h : verb.fold = verb'.fold)
    (xs : List (ℤ × Object)) : searchVerb verb xs = searchVerb verb' xs := by
  have hc : callable verb = callable verb' := by
    funext v
    rw [callable, callable, verbcasecmp_fold _ h]
  induction xs with
  | nil => rfl
  | cons x xs ih => rw [searchVerb_cons, searchVerb_cons, hc, ih]

/-- Objects without verbs in front make no difference. -/
theorem searchVerb_dropWhile (verb : CStr) (xs : List (ℤ × Object)) :
    searchVerb verb (xs.dropWhile fun a => a.2.verbdefs = []) = searchVerb verb xs := by
  induction xs with
  | nil => rfl
  | cons x xs ih =>
    rw [List.dropWhile_cons]
    by_cases h : x.2.verbdefs = []
    · rw [if_pos (by simpa using h), ih, searchVerb_cons, (verbs_nil x.2).mpr h]
      rfl
    · rw [if_neg (by simpa using h)]

/-- What a search sees of an object. -/
def Object.searched (o : Object) : ℤ × List (ℕ × CStr × Bool) := (o.kin.up, o.verbs)

/-- The links of an object and its verbs. -/
def Object.frame (o : Object) : Forest.Links ℤ × Forest.Links ℤ × List (ℕ × CStr × Bool) :=
  (o.kin, o.place, o.verbs)

namespace Db

open Forest

theorem Lineage.dropWhile {db : Db} {i : ℤ} {chain : List (ℤ × Object)} (h : db.Lineage i chain)
    {a : ℤ × Object} {rest : List (ℤ × Object)}
    (hd : (chain.dropWhile fun a => a.2.verbdefs = []) = a::rest) :
    db.objects a.1 = some a.2 ∧ a.2.verbdefs ≠ [] ∧ db.Lineage a.1 (a::rest) := by
  induction h with
  | nil => simp at hd
  | @cons i o xs ho hrest ih =>
    rw [List.dropWhile_cons] at hd
    by_cases hv : o.verbdefs = []
    · rw [if_pos (by simpa using hv)] at hd
      exact ih hd
    · rw [if_neg (by simpa using hv)] at hd
      obtain ⟨rfl, rfl⟩ := List.cons.inj hd
      exact ⟨ho, hv, .cons ho hrest⟩

/-- An entry for no object remembers a failure, and one for an object with verbs what a search
from there finds. -/
def EntryOk (db : Db) (e : VcEntry) : Prop :=
  e.oidKey = nothing ∧ e.h = none ∨
  ∃ o chain, db.objects e.oidKey = some o ∧ o.verbdefs ≠ [] ∧ db.Lineage e.oidKey chain ∧
    e.h = searchVerb e.verbname chain

def CacheOk (db : Db) : Prop :=
  ∀ table, db.vcTable = some table → ∀ bucket, ∀ e ∈ table bucket, db.EntryOk e

section Keep
variable {db db' : Db} {x : ℤ}
  (hsame : ∀ i, i ≠ x → (db'.objects i).map Object.searched = (db.objects i).map Object.searched)
  (hbarren : ∀ c, ¬Above nothing db.kin c x)
include hsame hbarren

theorem EntryOk.keep (hverbs : ∀ o, db.objects x = some o → o.verbdefs = []) {e : VcEntry}
    (h : db.EntryOk e) : db'.EntryOk e := by
  rcases h with h|⟨o, chain, ho, hv, hl, he⟩
  · exact .inl h
  · have hne : e.oidKey ≠ x := by
      intro hx
      exact hv (hverbs o (hx ▸ ho))
    have hnot : ¬Below nothing db.kin e.oidKey x := by
      intro hb
      rcases Relation.ReflTransGen.cases_tail hb with he|⟨c, -, hc⟩
      · exact hne he.symm
      · exact hbarren c hc
    obtain ⟨chain', hl', hm⟩ := hl.same Object.verbs hsame hnot
    have hs := hsame _ hne
    rw [ho, Option.map_some, Option.map_eq_some_iff] at hs
    obtain ⟨o', ho', heq⟩ := hs
    refine .inr ⟨o', chain', ho', ?_, hl', ?_⟩
    · rw [ne_eq, ← verbs_nil, (Prod.mk.inj heq).2, verbs_nil]
      exact hv
    · rw [he, searchVerb_congr _ hm]

/-- An object that no search from a key goes through may change. -/
theorem CacheOk.except (hverbs : ∀ o, db.objects x = some o → o.verbdefs = [])
    (htable : db'.vcTable = db.vcTable) (h : db.CacheOk) : db'.CacheOk := by
  intro table ht bucket e he
  rw [htable] at ht
  exact (h table ht bucket e he).keep hsame hbarren hverbs

end Keep

theorem EntryOk.same {db db' : Db} {e : VcEntry} (h : db.EntryOk e)
    (hsame : ∀ i, (db'.objects i).map Object.searched = (db.objects i).map Object.searched) :
    db'.EntryOk e := by
  refine h.keep (x := nothing) (fun i _ => hsame i) (fun c hc => ?_) fun o ho => ?_
  · obtain ⟨-, -, -, hne⟩ := above_iff.mp hc
    exact hne rfl
  · rw [nothing_free] at ho
    cases ho

theorem CacheOk.same {db db' : Db} (h : db.CacheOk) (htable : db'.vcTable = db.vcTable)
    (hsame : ∀ i, (db'.objects i).map Object.searched = (db.objects i).map Object.searched) :
    db'.CacheOk := by
  intro table ht bucket e he
  rw [htable] at ht
  exact (h table ht bucket e he).same hsame

/-- The hierarchies, the verbs and the cache are the same. -/
structure Framed (db db' : Db) : Prop where
  table : db'.vcTable = db.vcTable
  frame : ∀ i, (db'.objects i).map Object.frame = (db.objects i).map Object.frame

namespace Framed
variable {db db' : Db}

theorem refl (db : Db) : db.Framed db := ⟨rfl, fun _ => rfl⟩

theorem trans {db'' : Db} (h : db.Framed db') (h' : db'.Framed db'') : db.Framed db'' :=
  ⟨h'.table.trans h.table, fun i => (h'.frame i).trans (h.frame i)⟩

theorem field {β : Type} (h : db.Framed db')
    (g : Forest.Links ℤ × Forest.Links ℤ × List (ℕ × CStr × Bool) → β) (i : ℤ) :
    (db'.objects i).map (g ∘ Object.frame) = (db.objects i).map (g ∘ Object.frame) := by
  rw [← Option.map_map, ← Option.map_map, h.frame]

theorem kin_eq (h : db.Framed db') : db'.kin = db.kin := by
  funext i
  exact h.field (fun f => f.1) i

theorem place_eq (h : db.Framed db') : db'.place = db.place := by
  funext i
  exact h.field (fun f => f.2.1) i

theorem forested (h : db.Framed db') (hf : db.Forested) : db'.Forested :=
  ⟨h.kin_eq ▸ hf.kin, h.place_eq ▸ hf.place⟩

theorem cacheOk (h : db.Framed db') (hc : db.CacheOk) : db'.CacheOk :=
  hc.same h.table fun i => h.field (fun f => (f.1.up, f.2.2)) i

theorem modify (h : db.Framed db') (i : ℤ) {f : Object → Object}
    (hf : ∀ o, (f o).frame = o.frame) : db.Framed (db'.modify i f) :=
  ⟨h.table, fun j => (db'.modify_field Object.frame f hf i j).trans (h.frame j)⟩

end Framed

theorem Like.framed {db db' : Db} (h : db.Like db') (htable : db'.vcTable = db.vcTable)
    (hverbs : ∀ i, (db'.objects i).map Object.verbs = (db.objects i).map Object.verbs) :
    db.Framed db' := by
  refine ⟨htable, fun i => ?_⟩
  have hv := hverbs i
  cases ho : db.objects i with
  | none => rw [h.none ho]
  | some o =>
    obtain ⟨o', ho', hk, hp, -⟩ := h.some ho
    rw [ho, ho', Option.map_some, Option.map_some, Option.some.injEq] at hv
    rw [ho', Option.map_some, Option.map_some, Object.frame, Object.frame, hk, hp, hv]

/-- An empty cache. -/
def Flushed (db : Db) : Prop := ∀ table, db.vcTable = some table → ∀ bucket, table bucket = []

theorem affectedCallableVerbLookup_flushed (db : Db) : db.affectedCallableVerbLookup.Flushed := by
  intro table ht bucket
  obtain ⟨t, -, rfl⟩ := Option.map_eq_some_iff.mp ht
  rfl

theorem Flushed.table {db db' : Db} (h : db.Flushed) (ht : db'.vcTable = db.vcTable) :
    db'.Flushed := by
  intro table htable
  rw [ht] at htable
  exact h table htable

theorem Flushed.cacheOk {db : Db} (h : db.Flushed) : db.CacheOk := by
  intro table ht bucket e he
  rw [h table ht bucket] at he
  cases he

/-- Verbs and the cache were changed, and nothing else was. -/
structure Reverbed (db db' : Db) : Prop where
  size : db'.numObjects = db.numObjects
  uid : db'.nextUid = db.nextUid
  heap : db'.wpds = db.wpds ∧ db'.nextWpd = db.nextWpd
  rest : ∀ i, (db'.objects i).map (fun o => { o with verbdefs := [] }) =
    (db.objects i).map fun o => { o with verbdefs := [] }

namespace Reverbed
variable {db db' : Db}

theorem field (h : db.Reverbed db') {β : Type} (g : Object → β)
    (hg : ∀ o : Object, g { o with verbdefs := [] } = g o) (i : ℤ) :
    (db'.objects i).map g = (db.objects i).map g := by
  have := congrArg (Option.map g) (h.rest i)
  rw [Option.map_map, Option.map_map] at this
  have hc : (g ∘ fun o : Object => { o with verbdefs := [] }) = g := funext hg
  rwa [hc] at this

theorem forested (h : db.Reverbed db') (hf : db.Forested) : db'.Forested := by
  have hk : db'.kin = db.kin := funext (h.field (·.kin) fun _ => rfl)
  have hp : db'.place = db.place := funext (h.field (·.place) fun _ => rfl)
  exact ⟨hk ▸ hf.kin, hp ▸ hf.place⟩

theorem sound (h : db.Reverbed db') (hs : db.Sound) : db'.Sound :=
  hs.face (h.field _ fun _ => rfl) (h.forested hs.forested).kin (h.forested hs.forested).place
    (le_of_eq h.uid.symm)

theorem modify (db : Db) (i : ℤ) (f : List Verbdef → List Verbdef) :
    db.Reverbed (db.modify i fun o => { o with verbdefs := f o.verbdefs }) :=
  ⟨rfl, rfl, ⟨rfl, rfl⟩, db.modify_field (fun o => { o with verbdefs := [] })
    (fun o => { o with verbdefs := f o.verbdefs }) (fun _ => rfl) i⟩

/-- A change of verbs after which the cache is empty. -/
theorem flush (db : Db) (i : ℤ) (f : List Verbdef → List Verbdef) :
    db.Reverbed (db.affectedCallableVerbLookup.modify i fun o => { o with
      verbdefs := f o.verbdefs }) :=
  have h := modify db.affectedCallableVerbLookup i f
  ⟨h.size, h.uid, h.heap, h.rest⟩

end Reverbed

theorem deleteVerb_reverbed {db db' : Db} {definer : ℤ} {verbdef : ℕ}
    (h : db.deleteVerb definer verbdef = .ok db') : db.Reverbed db' ∧ db'.Flushed := by
  rw [deleteVerb] at h
  obtain ⟨o, -, h⟩ := bind_ok.mp h
  split at h
  · next i _ =>
    obtain rfl := pure_ok.mp h
    exact ⟨.flush db definer (·.eraseIdx i), affectedCallableVerbLookup_flushed db⟩
  · cases h

/-- A change of a verb that a search does not see. -/
theorem setVerb_framed (db : Db) (definer : ℤ) (verbdef : ℕ) {f : Verbdef → Verbdef}
    (hf : ∀ v, ((f v).ptr, (f v).name, (f v).perms.exec) = (v.ptr, v.name, v.perms.exec)) :
    db.Framed (db.setVerb definer verbdef f) := by
  refine (Framed.refl db).modify definer fun o => ?_
  rw [Object.frame, Object.frame, Object.verbs, Object.verbs, List.map_map]
  have hsame : ((fun v : Verbdef => (v.ptr, v.name, v.perms.exec)) ∘
      fun v => if v.ptr = verbdef then f v else v) = fun v => (v.ptr, v.name, v.perms.exec) := by
    funext v
    by_cases hv : v.ptr = verbdef
    · rw [Function.comp_apply, if_pos hv, hf]
    · rw [Function.comp_apply, if_neg hv]
  rw [hsame]

section Lookup
variable {db : Db} {oid : ℤ} {chain : List (ℤ × Object)} (hl : db.Lineage oid chain)
include hl

theorem entryOk_found (hash : BitVec 32) (verb : CStr) {tail : List (ℤ × Object)}
    (ht : (chain.dropWhile fun a => a.2.verbdefs = []) = tail) :
    db.EntryOk ⟨hash, (tail.head?.map Prod.fst).getD nothing, verb, searchVerb verb tail⟩ := by
  cases tail with
  | nil => exact .inl ⟨rfl, rfl⟩
  | cons a rest =>
    obtain ⟨ho, hv, hl⟩ := hl.dropWhile ht
    exact .inr ⟨a.2, a::rest, ho, hv, hl, rfl⟩

theorem EntryOk.found {e : VcEntry} (he : db.EntryOk e) {tail : List (ℤ × Object)}
    (ht : (chain.dropWhile fun a => a.2.verbdefs = []) = tail)
    (hkey : (tail.head?.map Prod.fst).getD nothing = e.oidKey) : e.h = searchVerb e.verbname tail := by
  cases tail with
  | nil =>
    rcases he with ⟨-, hn⟩|⟨o, xs, ho, -⟩
    · exact hn
    · rw [← hkey] at ho
      exact absurd (nothing_free.symm.trans ho) nofun
  | cons a rest =>
    obtain ⟨ha, -, hla⟩ := hl.dropWhile ht
    have hkey : a.1 = e.oidKey := hkey
    rcases he with ⟨hk, -⟩|⟨o, xs, ho, -, hx, he⟩
    · rw [hkey, hk] at ha
      exact absurd (nothing_free.symm.trans ha) nofun
    · rw [← hkey] at hx
      rw [he, hx.unique hla]

end Lookup

/-- A lookup finds what a search finds, and what it remembers of it is right. -/
theorem findCallableVerb_eq {db : Db} (hf : IsForest nothing db.kin) (hc : db.CacheOk) (oid : ℤ)
    (verb : CStr) : ∃ r table, db.searchCallableVerb oid verb = .ok r ∧
      db.findCallableVerb oid verb = .ok (r, { db with vcTable := some table }) ∧
      CacheOk { db with vcTable := some table } := by
  obtain ⟨chain, hch, hl⟩ := ancestors_eq hf oid
  generalize ht : (chain.dropWhile fun a => a.2.verbdefs = []) = tail
  have hentry : ∀ bucket, ∀ e ∈ (db.vcTable.getD fun _ => []) bucket, db.EntryOk e := by
    intro bucket e he
    cases hv : db.vcTable with
    | none => simp [hv] at he
    | some table =>
      rw [hv, Option.getD_some] at he
      exact hc table hv bucket e he
  have hsearch : db.searchCallableVerb oid verb = .ok (searchVerb verb tail) := by
    rw [searchCallableVerb, hch, ← ht, searchVerb_dropWhile]
    rfl
  rw [findCallableVerb, hch]
  dsimp only [Bind.bind, Except.bind]
  rw [ht]
  generalize (db.vcTable.getD fun _ => []) = table at hentry ⊢
  have hnew := entryOk_found hl (vcHash verb ((tail.head?.map Prod.fst).getD nothing)) verb ht
  generalize vcHash verb ((tail.head?.map Prod.fst).getD nothing) = hash at hnew ⊢
  generalize hash.toNat%defaultVcSize = bucket
  cases hfind : (table bucket).find? fun vc => vc.hash = hash ∧
      (tail.head?.map Prod.fst).getD nothing = vc.oidKey ∧
      mystrcasecmp verb.str vc.verbname.str = 0 with
  | some vc =>
    have hprop := List.find?_some hfind
    rw [decide_eq_true_eq] at hprop
    have hvc := (hentry bucket vc (List.mem_of_find?_eq_some hfind)).found hl ht hprop.2.1
    rw [← searchVerb_fold ((CStr.casecmp_iff _ _).mp hprop.2.2)] at hvc
    refine ⟨vc.h, table, by rw [hsearch, hvc], rfl, fun t he b e hb => ?_⟩
    obtain rfl := Option.some.inj he
    exact (hentry b e hb).same fun _ => rfl
  | none =>
    refine ⟨searchVerb verb tail, _, hsearch, rfl, fun t he b e hb => ?_⟩
    obtain rfl := Option.some.inj he
    have hok : db.EntryOk e := by
      by_cases hbb : b = bucket
      · subst hbb
        rw [Function.update_self, List.mem_cons] at hb
        rcases hb with rfl|hb
        · exact hnew
        · exact hentry b e hb
      · rw [Function.update_of_ne hbb] at hb
        exact hentry b e hb
    exact hok.same fun _ => rfl

end Db
end LambdaMoo.Database
