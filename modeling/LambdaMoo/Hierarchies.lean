import LambdaMoo.Recycle
import LambdaMoo.Safe
import LambdaMoo.VerbCache

/-!
# The hierarchies of a database

Whatever the properties of its objects are, an operation on a database whose
parents and locations form forests does not panic and leaves such a database.
If the verb cache was right before it, it is right after it.
-/

set_option autoImplicit false

namespace LambdaMoo.Database
namespace Db

open Forest

theorem deref_safe {α : Type} {x : Option α} {P : α → Prop} (h : ∀ a, x = some a → P a) :
    Safe (deref x) P := by
  cases x with
  | none => trivial
  | some a => exact h a rfl

theorem object_safe (db : Db) (i : ℤ) : Safe (db.object i) fun o => db.objects i = some o := by
  rw [object, find_eq]
  exact deref_safe fun _ h => h

section Walks
variable {db : Db} (hf : IsForest nothing db.kin)
include hf

theorem countProperties_safe (i : ℤ) : Safe (db.countProperties i) fun _ => True := by
  obtain ⟨chain, hc, -⟩ := ancestors_eq hf i
  exact .bindEq hc trivial

theorem subtree_safe (i : ℤ) (pos : ℕ) :
    Safe (db.subtree db.fuel i pos) fun _ => (db.objects i).isSome = true := by
  cases hi : db.objects i with
  | some o =>
    obtain ⟨ds, hds, -⟩ := subtree_eq hf pos (i := i) (by simp [hi])
    exact .ofEq hds rfl
  | none =>
    rw [fuel, subtree, children, object, find_eq, hi]
    trivial

theorem definedAtOrBelow_safe (name : CStr) (i : ℤ) :
    Safe (db.definedAtOrBelow name i) fun _ => True := by
  cases hi : db.objects i with
  | some o =>
    obtain ⟨b, hb, -⟩ := definedAtOrBelow_eq hf (i := i) (by simp [hi]) name
    exact .ofEq hb trivial
  | none =>
    rw [definedAtOrBelow, fuel, subtree, children, object, find_eq, hi]
    trivial

end Walks

section Properties
variable {base : Db} (hk : IsForest nothing base.kin)
include hk

theorem insertProp_safe {db : Db} (h : base.Framed db) (i : ℤ) (pos : ℕ) (pv : Pval) :
    Safe (db.insertProp i pos pv) base.Framed := by
  rw [insertProp]
  refine (countProperties_safe (h.kin_eq ▸ hk) i).bind fun n _ => (db.object_safe i).bind fun o _ => ?_
  refine .ite (fun _ => ?_) fun _ => .undefined _
  exact h.modify i fun _ => rfl

theorem removeProp_safe {db : Db} (h : base.Framed db) (i : ℤ) (pos : ℕ) :
    Safe (db.removeProp i pos) base.Framed := by
  rw [removeProp]
  refine (countProperties_safe (h.kin_eq ▸ hk) i).bind fun n _ => (db.object_safe i).bind fun o _ => ?_
  refine .ite (fun _ => ?_) fun _ => .undefined _
  exact h.modify i fun _ => rfl

theorem addPropdef_safe {db : Db} (h : base.Framed db) (oid : ℤ) (pname : Name) (value : Var)
    (owner : ℤ) (flags : PropPerms) :
    Safe (db.addPropdef oid pname value owner flags) fun r => base.Framed r.2 := by
  rw [addPropdef]
  obtain ⟨found, hfound, -⟩ := findProperty_eq (h.kin_eq ▸ hk) oid pname.str
  refine .bindEq hfound (.ite (fun _ => h) fun _ => ?_)
  refine (definedAtOrBelow_safe (h.kin_eq ▸ hk) pname.str oid).bind fun b _ => .ite (fun _ => h) fun _ => ?_
  refine (db.object_safe oid).bind fun o _ => ?_
  have h1 : base.Framed (db.withPropdef oid pname) :=
    let h1 := h.modify oid (f := fun o => { o with propdefs := o.propdefs++[⟨pname, db.nextUid⟩] })
      fun _ => rfl
    ⟨h1.table, h1.frame⟩
  refine Safe.bind (P := base.Framed) ?_ fun db2 h2 => h2
  rw [insertPropRecursively]
  exact (subtree_safe (h1.kin_eq ▸ hk) oid o.propdefs.length).bind fun ds _ =>
    .foldlM (fun db d hd => insertProp_safe hk hd d.1 d.2 _) h1

theorem deletePropdef_safe {db : Db} (h : base.Framed db) (oid : ℤ) (pname : CStr) :
    Safe (db.deletePropdef oid pname) fun r => base.Framed r.2 := by
  rw [deletePropdef]
  refine (db.object_safe oid).bind fun o _ => ?_
  split
  · exact h
  · next i _ =>
    have h1 : base.Framed (db.modify oid fun o => { o with propdefs := o.propdefs.eraseIdx i }) :=
      h.modify oid fun _ => rfl
    refine Safe.bind (P := base.Framed) ?_ fun db2 h2 => h2
    rw [removePropRecursively]
    exact (subtree_safe (h1.kin_eq ▸ hk) oid i).bind fun ds _ =>
      .foldlM (fun db d hd => removeProp_safe hk hd d.1 d.2) h1

omit hk in
theorem renamePropdef_framed {db : Db} (h : base.Framed db) {oid : ℤ} {o : Object}
    (ho : db.objects oid = some o) {old : CStr} {new : Name} {r : Bool × Db}
    (hr : db.renamePropdef oid old new = .ok r) : base.Framed r.2 := by
  rcases renamePropdef_cases ho hr with rfl|⟨i, pd, db1, -, -, -, hdb1, rfl⟩
  · exact h
  · have hw := renamePropRecursively_rewired hdb1
    have h1 := h.trans ⟨hw.table, hw.field Object.frame fun _ => rfl⟩
    exact h1.modify oid fun _ => rfl

omit hk in
theorem slotValue_safe (n : ℕ) (chain : List (ℤ × Object)) :
    Safe (slotValue n chain) fun _ => True := by
  induction chain generalizing n with
  | nil => trivial
  | cons a rest ih =>
    rw [slotValue]
    refine (deref_safe fun _ _ => trivial).bind fun pv _ => .ite (fun _ => ih _) fun _ => trivial

omit hk in
theorem setSlot_safe {db : Db} (h : base.Framed db) (i : ℤ) (n : ℕ) (v : Var) :
    Safe (db.setSlot i n v) base.Framed := by
  rw [setSlot]
  refine (db.object_safe i).bind fun o _ => .ite (fun _ => ?_) fun _ => .undefined _
  exact h.modify i fun _ => rfl

theorem quota_safe {db : Db} (h : base.Framed db) (player : ℤ) :
    Safe (db.quota player) fun _ => True := by
  rw [quota]
  refine .ite (fun _ => trivial) fun _ => ?_
  obtain ⟨found, hfound, -⟩ := findProperty_eq (h.kin_eq ▸ hk) player quotaName
  refine .bindEq hfound ?_
  split
  · obtain ⟨chain, hc, -⟩ := ancestors_eq (h.kin_eq ▸ hk) player
    refine .bindEq hc ((slotValue_safe _ chain).bind fun v _ => ?_)
    split <;> trivial
  · trivial

theorem decrQuota_safe {db : Db} (h : base.Framed db) (player : ℤ) :
    Safe (db.decrQuota player) fun r => base.Framed r.2 := by
  rw [decrQuota]
  refine (quota_safe hk h player).bind fun q _ => ?_
  split
  · exact h
  · refine .ite (fun _ => h) fun _ => (setSlot_safe h player _ _).bind fun db' h' => h'

theorem incrQuota_safe {db : Db} (h : base.Framed db) (player : ℤ) :
    Safe (db.incrQuota player) base.Framed := by
  rw [incrQuota]
  refine (quota_safe hk h player).bind fun q _ => ?_
  split
  · exact h
  · exact setSlot_safe h player _ _

theorem clearProp_safe {db : Db} (h : base.Framed db) (oid : ℤ) (pname : CStr) (progr : ℤ) :
    Safe (db.clearProp oid pname progr) fun r => base.Framed r.2 := by
  rw [clearProp]
  split
  · exact h
  · obtain ⟨found, hfound, -⟩ := findProperty_eq (h.kin_eq ▸ hk) oid pname
    refine .bindEq hfound ?_
    split
    · exact h
    · exact h
    · refine (deref_safe fun _ _ => trivial).bind fun pv _ => .ite (fun _ => h) fun _ => ?_
      refine .ite (fun _ => h) fun _ => (setSlot_safe h oid _ _).bind fun db' h' => h'

omit hk in
theorem fixProps_safe {db : Db} (h : base.Framed db) (old new common : ℕ) (oid : ℤ) (loc : ℕ) :
    Safe (fixProps old new common db oid loc) base.Framed := by
  rw [fixProps]
  refine (db.object_safe oid).bind fun me _ => ?_
  have hlast : ∀ inherited, Safe (if loc+old+common ≤ me.propval.length then
      (return db.modify oid fun o => { o with
        waifPropdefs := none
        propval := o.propval.take loc++inherited++(o.propval.drop (loc+old)).take common } : Result Db)
      else .error (.undefined "propval out of bounds")) base.Framed := by
    intro inherited
    refine .ite (fun _ => ?_) fun _ => .undefined _
    exact h.modify oid fun _ => rfl
  dsimp only
  refine .ite (fun _ => hlast _) fun _ => ?_
  refine (deref_safe fun _ _ => trivial).bind fun parent _ => ?_
  exact .ite (fun _ => hlast _) fun _ => .undefined _

theorem commonProps_safe {db : Db} (h : base.Framed db) (new old : ℤ) :
    Safe (db.commonProps new old) fun _ => True := by
  rw [commonProps]
  obtain ⟨olds, ho, -⟩ := ancestors_eq (h.kin_eq ▸ hk) old
  obtain ⟨news, hn, -⟩ := ancestors_eq (h.kin_eq ▸ hk) new
  refine .bindEq ho (.bindEq hn ?_)
  split
  · exact countProperties_safe (h.kin_eq ▸ hk) _
  · trivial

theorem fixPropertiesAfterChparent_safe {db : Db} (h : base.Framed db) (oid old : ℤ) :
    Safe (db.fixPropertiesAfterChparent oid old) base.Framed := by
  have hf : IsForest nothing db.kin := h.kin_eq ▸ hk
  rw [fixPropertiesAfterChparent]
  refine (db.object_safe oid).bind fun o _ => (commonProps_safe hk h _ _).bind fun common _ => ?_
  refine (countProperties_safe hf _).bind fun olds _ => (countProperties_safe hf _).bind fun news _ => ?_
  exact (subtree_safe hf oid _).bind fun ds _ =>
    .foldlM (fun db d hd => fixProps_safe hd _ _ _ d.1 d.2) h

theorem fixOwners_safe (old new : ℤ) : Safe (base.fixOwners old new) base.Framed := by
  rw [fixOwners]
  refine .foldlM (fun db i h => ?_) (.refl base)
  split
  · exact h
  · refine (countProperties_safe (h.kin_eq ▸ hk) _).bind fun n _ => ?_
    refine .ite (fun _ => ?_) fun _ => .undefined _
    exact h.modify _ fun _ => by simp [Object.frame, Object.verbs, renameOwners]

end Properties

/-- What an operation keeps: that there are two hierarchies, and that the cache is right. -/
structure Kept (db db' : Db) : Prop where
  forested : db'.Forested
  cacheOk : db.CacheOk → db'.CacheOk

theorem Kept.refl {db : Db} (h : db.Forested) : db.Kept db := ⟨h, fun hc => hc⟩

theorem Kept.trans {db db' db'' : Db} (h : db.Kept db') (h' : db'.Kept db'') : db.Kept db'' :=
  ⟨h'.forested, fun hc => h'.cacheOk (h.cacheOk hc)⟩

theorem Framed.kept {db db' : Db} (h : db.Framed db') (hf : db.Forested) : db.Kept db' :=
  ⟨h.forested hf, h.cacheOk⟩

theorem Flushed.kept {db db' : Db} (h : db'.Flushed) (hf : db'.Forested) : db.Kept db' :=
  ⟨hf, fun _ => h.cacheOk⟩

theorem Moved.kept {db db' : Db} (h : db.Moved db') (hf : IsForest nothing db.kin) :
    db.Kept db' :=
  ⟨h.forested hf, fun hc => hc.same h.table (h.field Object.searched fun _ => rfl)⟩

theorem createObject_kept {db : Db} (h : db.Forested) : db.Kept db.createObject := by
  refine ⟨createObject_forested h, CacheOk.except (x := db.numObjects) (fun i hi => ?_)
    (fun c hc => ?_) (fun o ho => ?_) rfl⟩
  · rw [createObject_ne hi]
  · have hs := (h.kin.above_isSome hc).2
    rw [kin_isSome, next_free] at hs
    cases hs
  · rw [next_free] at ho
    cases ho

/-- One object has another parent, and the locations are the same. -/
structure Rekinned (db db' : Db) (oid parent : ℤ) : Prop where
  kin : IsForest nothing db'.kin
  place : db'.place = db.place
  isSome : ∀ i, (db'.objects i).isSome = (db.objects i).isSome
  up : ∀ i, upOf nothing db'.kin i = Function.update (upOf nothing db.kin) oid parent i
  cacheOk : db.CacheOk → db'.CacheOk

theorem Rekinned.kept {db db' : Db} {oid parent : ℤ} (h : db.Rekinned db' oid parent)
    (hf : db.Forested) : db.Kept db' := ⟨⟨h.kin, h.place ▸ hf.place⟩, h.cacheOk⟩

theorem setKin_searched {db : Db} {hk : Heap ℤ} {i : ℤ}
    (hs : (hk i).isSome = (db.objects i).isSome) (hu : upOf nothing hk i = upOf nothing db.kin i) :
    ((db.setKin hk).objects i).map Object.searched = (db.objects i).map Object.searched := by
  cases ho : db.objects i with
  | none => simp [setKin, mapObjects, ho]
  | some o =>
    rw [ho, Option.isSome_some] at hs
    obtain ⟨l, hl⟩ := Option.isSome_iff_exists.mp hs
    rw [upOf_eq nothing hl, upOf_eq nothing (kin_some ho)] at hu
    simp [setKin, mapObjects, ho, hl, Object.searched, Object.verbs, hu]

theorem destroyObject_flushed {db db' : Db} {oid : ℤ} (h : db.destroyObject oid = .ok db') :
    db'.Flushed := by
  rw [destroyObject] at h
  split at h
  · cases h
  · split at h
    · cases h
    · obtain rfl := Except.ok.inj h
      exact Flushed.table (affectedCallableVerbLookup_flushed db) rfl

section Parents
variable {db : Db} (h : db.Forested)
include h

theorem changeParent_safe {oid parent : ℤ} (hoid : (db.objects oid).isSome = true)
    (hdest : parent = nothing ∨ (db.objects parent).isSome = true)
    (hnot : ¬Below nothing db.kin parent oid) :
    Safe (db.changeParent oid parent) fun r =>
      r.2 = db ∧ (db.objects parent).isSome = true ∨ db.Rekinned r.2 oid parent := by
  rw [changeParent]
  obtain ⟨b, hb, hiff⟩ := checkPropertiesForChparent_eq h.kin hoid parent
  refine .bindEq hb ?_
  cases b with
  | false =>
    refine .inl ⟨rfl, ?_⟩
    by_contra hno
    exact absurd (hiff.mpr fun _ _ _ _ _ _ hs => absurd hs hno) (by simp)
  | true =>
    obtain ⟨o, ho⟩ := Option.isSome_iff_exists.mp hoid
    obtain ⟨hk, hr, hf, hsome, hup⟩ := h.kin.reparent ((kin_isSome oid).trans hoid)
      (by rw [kin_isSome]; exact hdest) hnot db.kin_small
    have hs : ∀ i, (hk i).isSome = (db.objects i).isSome := fun i => (hsome i).trans (kin_isSome i)
    refine .bindEq (object_ok ho) (.bindEq (congrArg deref hr) ?_)
    generalize htable : (if o.kin.first = nothing ∧ o.verbdefs = [] then db.vcTable
      else db.affectedCallableVerbLookup.vcTable) = table
    generalize hbase : ({ db with vcTable := table }.setKin hk) = base
    have hkin : base.kin = hk := by
      rw [← hbase]
      exact setKin_kin hs
    have hplace : base.place = db.place := by
      rw [← hbase]
      funext i
      simp only [Db.place, setKin, mapObjects, Option.map_map]
      rfl
    have hcache : db.CacheOk → base.CacheOk := by
      intro hc
      by_cases hskip : o.kin.first = nothing ∧ o.verbdefs = []
      · rw [if_pos hskip] at htable
        refine CacheOk.except (x := oid) (fun i hi => ?_) (barren ho h.kin hskip.1)
          (fun o' ho' => ?_) (by rw [← hbase]; exact htable.symm) hc
        · rw [← hbase]
          exact setKin_searched (hs i) (by rw [hup, Function.update_of_ne hi]; rfl)
        · rw [← Option.some.inj (ho.symm.trans ho')]
          exact hskip.2
      · rw [if_neg hskip] at htable
        refine (Flushed.table (affectedCallableVerbLookup_flushed db) ?_).cacheOk
        rw [← hbase]
        exact htable.symm
    refine (fixPropertiesAfterChparent_safe (hkin ▸ hf) (.refl base) oid o.kin.up).bind
      fun db2 h2 => .inr ⟨?_, h2.place_eq.trans hplace, fun i => ?_, fun i => ?_,
        fun hc => h2.cacheOk (hcache hc)⟩
    · rw [h2.kin_eq, hkin]
      exact hf
    · rw [← kin_isSome, h2.kin_eq, hkin, hs]
    · rw [h2.kin_eq, hkin, hup]

theorem chparent_safe (what parent progr : ℤ) :
    Safe (db.chparent what parent progr) fun r => db.Kept r.2 := by
  rw [chparent, find_eq]
  cases ho : db.objects what with
  | none => exact .refl h
  | some o =>
    dsimp only
    refine .ite (fun _ => .refl h) fun hv => .ite (fun _ => .refl h) fun _ => ?_
    have hdest : parent = nothing ∨ (db.objects parent).isSome = true := by
      rw [valid, find_eq] at hv
      by_cases hn : parent = nothing
      · exact .inl hn
      · exact .inr (by simpa [hn, Option.isSome_iff_ne_none] using hv)
    have hne : what ≠ nothing := by
      rintro rfl
      rw [nothing_free] at ho
      cases ho
    obtain ⟨b, hb, hbelow⟩ := h.kin.reaches db.kin_small (i := parent)
      (by rw [kin_isSome]; exact hdest) hne
    rw [hb]
    refine .bindEq rfl (.ite (fun _ => .refl h) fun hfalse => ?_)
    have hnot : ¬Below nothing db.kin parent what := fun hx => hfalse (hbelow.mpr hx)
    refine (changeParent_safe h (by simp [ho]) hdest hnot).bind fun r hr => ?_
    obtain ⟨b, db'⟩ := r
    have hkept : db.Kept db' := by
      rcases hr with ⟨rfl, -⟩|hr
      · exact .refl h
      · exact hr.kept h
    cases b with
    | false => exact hkept
    | true => exact hkept

theorem passChildren_safe {oid : ℤ} (hoid : (db.objects oid).isSome = true) (fuel : ℕ) :
    Safe (passChildren oid fuel db) fun db' => IsForest nothing db'.kin ∧ db'.place = db.place ∧
      (∀ i, (db'.objects i).isSome = (db.objects i).isSome) ∧
      ∀ c, ¬Above nothing db'.kin c oid := by
  induction fuel generalizing db with
  | zero => trivial
  | succ fuel ih =>
    obtain ⟨xs, hxs, -, hmem⟩ := children_eq h.kin hoid
    rw [passChildren]
    refine .bindEq hxs ?_
    cases xs with
    | nil =>
      refine ⟨h.kin, rfl, fun _ => rfl, fun c hc => ?_⟩
      have := (hmem c).mpr hc
      simp at this
    | cons c rest =>
      have ha : Above nothing db.kin c oid := (hmem c).mp (by simp)
      have hcs : (db.objects c).isSome = true := by
        rw [← kin_isSome]
        exact (h.kin.above_isSome ha).1
      obtain ⟨o, ho⟩ := Option.isSome_iff_exists.mp hoid
      have hdest : o.kin.up = nothing ∨ (db.objects o.kin.up).isSome = true := by
        rw [← kin_isSome]
        exact h.kin.up oid o.kin (kin_some ho)
      have hnot : ¬Below nothing db.kin o.kin.up c := by
        intro hb
        by_cases hn : o.kin.up = nothing
        · rw [hn] at hb
          exact h.kin.not_below_nil ((kin_isSome c).trans hcs) hb
        · exact h.kin.irrefl (above_iff.mpr ⟨o, ho, rfl, hn⟩) (hb.tail ha)
      refine .bindEq (object_ok ho) ((changeParent_safe h hcs hdest hnot).bind fun r hr => ?_)
      obtain ⟨b, db'⟩ := r
      rcases hr with ⟨rfl, -⟩|hr
      · exact ih h hoid
      · refine (ih ⟨hr.kin, hr.place ▸ h.place⟩ (by rw [hr.isSome]; exact hoid)).imp fun db'' h'' => ?_
        exact ⟨h''.1, h''.2.1.trans hr.place, fun i => (h''.2.2.1 i).trans (hr.isSome i), h''.2.2.2⟩

/-- An object that was emptied and has no location is destroyed without a panic. -/
theorem demolish_safe {oid : ℤ} {o : Object} (ho : db.objects oid = some o)
    (hloc : o.place.up = nothing) (hcont : ∀ c, ¬Above nothing db.place c oid) :
    Safe (db.demolish oid) (Kept db) := by
  have hoid : (db.objects oid).isSome = true := by simp [ho]
  have hne : oid ≠ nothing := by
    rintro rfl
    rw [nothing_free] at ho
    cases ho
  have hcfirst : o.place.first = nothing := h.place.first_nil (place_some ho) hcont
  rw [demolish]
  refine (passChildren_safe h hoid db.fuel).bind fun db1 h1 => ?_
  obtain ⟨hk1, hp1, hs1, hno⟩ := h1
  have hoid1 : (db1.objects oid).isSome = true := (hs1 oid).trans hoid
  have hnil := hk1.not_below_nil ((kin_isSome oid).trans hoid1)
  have hf1 : db1.Forested := ⟨hk1, hp1 ▸ h.place⟩
  refine (changeParent_safe hf1 hoid1 (.inl rfl) hnil).bind fun r hr => ?_
  obtain ⟨b, db2⟩ := r
  have hr : db1.Rekinned db2 oid nothing := by
    rcases hr with ⟨-, hr⟩|hr
    · rw [nothing_free] at hr
      cases hr
    · exact hr
  refine (db2.object_safe oid).bind fun o2 ho2 => ?_
  refine (incrQuota_safe hr.kin (.refl db2) o2.owner).bind fun db3 h3 => ?_
  have hk3 := h3.kin_eq
  have hp3 := h3.place_eq
  have hs3 : (db3.objects oid).isSome = true := by
    rw [← kin_isSome, hk3, kin_isSome, ho2]
    rfl
  obtain ⟨o3, ho3⟩ := Option.isSome_iff_exists.mp hs3
  have hup : o3.kin.up = nothing := by
    rw [← upOf_eq nothing (kin_some ho3), hk3, hr.up, Function.update_self]
  have hfirst : o3.kin.first = nothing := by
    refine IsForest.first_nil (hk3 ▸ hr.kin) (kin_some ho3) fun c hc => ?_
    rw [hk3] at hc
    obtain ⟨hcs, hu, -⟩ := above_upOf.mp hc
    rw [hr.up] at hu
    by_cases hco : c = oid
    · subst hco
      rw [Function.update_self] at hu
      exact hne hu.symm
    · rw [Function.update_of_ne hco] at hu
      refine hno c (above_upOf.mpr ⟨?_, hu, hne⟩)
      rw [kin_isSome, ← hr.isSome, ← kin_isSome]
      exact hcs
  have hplace : o3.place = o.place := by
    have := place_some ho3
    rw [hp3, hr.place, hp1, place_some ho] at this
    exact (Option.some.inj this).symm
  obtain ⟨db4, hr4, hf4⟩ := destroyObject_forested ho3 hup hfirst (by rw [hplace, hloc])
    (by rw [hplace, hcfirst]) ⟨hk3 ▸ hr.kin, by rw [hp3, hr.place, hp1]; exact h.place⟩
  exact .ofEq hr4 ((destroyObject_flushed hr4).kept hf4)

theorem recycleContents_safe (callVerb : CallVerb) (oid : ℤ) :
    Safe (db.recycleContents callVerb oid) fun r => db.Kept r.2 := by
  rw [recycleContents, valid, find_eq]
  cases hoid : (db.objects oid).isSome with
  | false => exact .refl h
  | true =>
    obtain ⟨xs, hxs, -, -, hlen⟩ := contents_eq h.place hoid
    obtain ⟨⟨called, db1⟩, hr1, he1, -, hlast⟩ := moveContents_eq h.place callVerb hoid hxs hlen
    have hkept1 := he1.moved.kept h.kin
    have hf1 := hkept1.forested
    refine .bindEq hr1 ?_
    cases called with
    | true => exact hkept1
    | false =>
      have hno := contents_nil hf1.place (hlast rfl).1
      have hoid1 : (db1.objects oid).isSome = true := (he1.moved.isSome oid).trans hoid
      obtain ⟨o1, ho1⟩ := Option.isSome_iff_exists.mp hoid1
      refine .bindEq (object_ok ho1) (.ite (fun hloc => ?_) fun hloc => ?_)
      · obtain ⟨db2, hr2, -, he2, hout⟩ := moveToNothing_eq hf1.place callVerb hoid1
        have hkept2 := hkept1.trans (he2.moved.kept hf1.kin)
        have hf2 := hkept2.forested
        refine .bindEq hr2 (.ite (fun _ => hkept2) fun _ => ?_)
        have hoid2 : (db2.objects oid).isSome = true := (he2.moved.isSome oid).trans hoid1
        obtain ⟨o2, ho2⟩ := Option.isSome_iff_exists.mp hoid2
        rw [upOf_eq nothing (place_some ho2)] at hout
        exact (demolish_safe hf2 ho2 hout fun c hc => hno c (he2.above hc)).bind fun db' h' =>
          hkept2.trans h'
      · exact (demolish_safe hf1 ho1 (not_not.mp hloc) hno).bind fun db' h' => hkept1.trans h'

theorem recycle_safe (callVerb : CallVerb) {pc : ℕ} (hpc : pc ∈ [1, 2]) (oid progr : ℤ) :
    Safe (db.recycle callVerb pc oid progr) fun r => db.Kept r.2 := by
  simp only [List.mem_cons, List.not_mem_nil, or_false] at hpc
  rcases hpc with rfl|rfl
  · rw [recycle]
    split
    · exact .refl h
    · exact .ite (fun _ => .refl h) fun _ => .ite (fun _ => .refl h) fun _ => recycleContents_safe h callVerb oid
  · exact recycleContents_safe h callVerb oid

theorem create_safe (callVerb : CallVerb) (parent owner progr : ℤ) :
    Safe (db.create callVerb parent owner progr) fun r => db.Kept r.2 := by
  rw [create]
  by_cases hdest : parent = nothing ∨ (db.objects parent).isSome = true
  · refine .ite (fun _ => .refl h) fun _ => ?_
    refine (decrQuota_safe h.kin (.refl db) owner).bind fun r hr => ?_
    obtain ⟨allowed, db1⟩ := r
    have hkept1 : db.Kept db1 := hr.kept h
    refine .ite (fun _ => hkept1) fun _ => ?_
    have hsome : ∀ i, (db1.objects i).isSome = (db.objects i).isSome := by
      intro i
      rw [← kin_isSome, ← kin_isSome, hr.kin_eq]
    dsimp only
    generalize hf : (fun o : Object => { o with
      owner := if owner = nothing then (db1.numObjects : ℤ) else owner }) = f
    have hframe : ∀ o, (f o).frame = o.frame := by
      subst hf
      exact fun _ => rfl
    have hc := createObject_kept hkept1.forested
    have hkept2 := hc.trans (((Framed.refl _).modify db1.numObjects hframe).kept hc.forested)
    have hf2 := hkept2.forested
    have hnew : db1.createObject.objects db1.numObjects = _ := createObject_self
    have ho2 := modify_self hnew f
    have hbar := barren ho2 hf2.kin (by subst hf; rfl)
    have hnot : ¬Below nothing (db1.createObject.modify db1.numObjects f).kin parent
        db1.numObjects := by
      intro hb
      rcases Relation.ReflTransGen.cases_tail hb with he|⟨c, -, hc⟩
      · rcases hdest with rfl|hs
        · exact numObjects_ne_nothing he
        · rw [← hsome, ← he, next_free] at hs
          cases hs
      · exact hbar c hc
    have hdest2 : parent = nothing ∨
        ((db1.createObject.modify db1.numObjects f).objects parent).isSome = true := by
      refine hdest.imp_right fun hs => ?_
      rw [modify_isSome, createObject_ne, hsome]
      · exact hs
      · rintro rfl
        rw [← hsome, next_free] at hs
        cases hs
    refine (changeParent_safe hf2 (by simp [ho2]) hdest2 hnot).bind fun r hr => ?_
    obtain ⟨b, db3⟩ := r
    have hkept3 : db.Kept db3 := by
      rcases hr with ⟨rfl, -⟩|hr
      · exact hkept1.trans hkept2
      · exact (hkept1.trans hkept2).trans (hr.kept hf2)
    split <;> exact hkept3
  · rw [not_or, Option.not_isSome_iff_eq_none] at hdest
    rw [find_eq, hdest.2]
    simp only [ne_eq, hdest.1, not_false_eq_true, decide_true, Bool.true_or, if_true]
    exact .refl h

theorem renumber_safe (oid progr : ℤ) :
    Safe (db.renumber oid progr) fun r => db.Kept r.2 := by
  rw [renumber, valid, find_eq]
  cases hoid : (db.objects oid).isSome with
  | false => exact .refl h
  | true =>
    refine .ite (fun hx => by simp at hx) fun _ => .ite (fun _ => .refl h) fun _ => ?_
    obtain ⟨o, ho⟩ := Option.isSome_iff_exists.mp hoid
    refine Safe.bind (P := fun r : ℤ × Db => db.Kept r.2) ?_ fun r hr => hr
    cases hfree : db.freeBelow oid with
    | none =>
      rw [renumberObject_none hfree]
      exact (affectedCallableVerbLookup_flushed db).kept ⟨h.kin, h.place⟩
    | some new =>
      obtain ⟨hlt, hn⟩ := freeBelow_some hfree
      have hnew : (new : ℤ) ≠ nothing := by
        rw [nothing]
        omega
      have hb : (0 : ℤ) ≤ new ∧ (new : ℤ) < db.numObjects := by omega
      have h1 := relinkedTo_relabelled ho hn hb
      have hk1 := h.kin.relabel (kin_some ho) (show db.kin new = none by simp [kin, hn]) hnew
      have hp1 := h.place.relabel (place_some ho) (show db.place new = none by simp [place, hn]) hnew
      rw [← h1.kin] at hk1
      rw [← h1.place] at hp1
      rw [renumberObject_eq h.kin h.place ho hfree hb]
      have hforest : IsForest nothing (db.usersRenamed oid new hb).kin := hk1
      refine Safe.bind (fixOwners_safe hforest oid new) fun db' h' => ?_
      have hf' := h'.forested ⟨hk1, hp1⟩
      exact (Flushed.table (affectedCallableVerbLookup_flushed db) h'.table).kept hf'

end Parents

end Db
end LambdaMoo.Database
