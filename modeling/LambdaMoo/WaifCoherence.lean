import LambdaMoo.Operations
import LambdaMoo.WaifProps

/-!
# Lists of waif properties over runs

After any operations in any order the list that an object points to is the one
that its ancestors define. A new name of a waif property is entered in the
list of every object below; it is found there, so the panic of the source does
not come.
-/

set_option autoImplicit false

namespace LambdaMoo.Database

theorem modify_once {α : Type} [DecidableEq α] {xs : List α} (hn : xs.Nodup) {i : ℕ} {p : α}
    (hi : xs[i]? = some p) (f : α → α) :
    xs.modify i f = xs.map fun q => if q = p then f q else q := by
  induction xs generalizing i with
  | nil => cases hi
  | cons x xs ih =>
    rw [List.nodup_cons] at hn
    cases i with
    | zero =>
      obtain rfl : x = p := Option.some.inj hi
      rw [List.modify_zero_cons, List.map_cons, if_pos rfl]
      congr 1
      have hrest : ∀ q ∈ xs, (if q = x then f q else q) = q :=
        fun q hq => if_neg (ne_of_mem_of_not_mem hq hn.1)
      rw [List.map_congr_left hrest, List.map_id']
    | succ i =>
      have hp : p ∈ xs := List.mem_of_getElem? hi
      rw [List.modify_succ_cons, List.map_cons, if_neg (ne_of_mem_of_not_mem hp hn.1).symm, ih hn.2 hi]

/-- What becomes of a definition when `p` gets a new name. -/
def Propdef.renamed (p : Propdef) (new : Name) (q : Propdef) : Propdef :=
  if q = p then { q with name := new } else q

theorem renamed_of_notMem {p : Propdef} (new : Name) {qs : List Propdef} (h : p ∉ qs) :
    qs.map (p.renamed new) = qs := by
  have hall : ∀ q ∈ qs, p.renamed new q = q := fun q hq => if_neg (ne_of_mem_of_not_mem hq h)
  rw [List.map_congr_left hall, List.map_id']

/-- Both names begin a waif property. -/
abbrev Waifs (old new : Name) : Prop :=
  old.str.str.head? = some waifPropPrefix ∧ new.str.str.head? = some waifPropPrefix

theorem renamed_isWaif {p : Propdef} {new : Name} (h : Waifs p.name new) (q : Propdef) :
    (p.renamed new q).isWaif = q.isWaif := by
  rw [Propdef.renamed]
  split
  · next he =>
    subst he
    simp [Propdef.isWaif, h.1, h.2]
  · rfl

theorem waifDefs_eq (chain : List (ℤ × Object)) :
    waifDefs chain = (chain.flatMap fun a => a.2.propdefs).filter (·.isWaif) := by
  induction chain with
  | nil => rfl
  | cons a chain ih =>
    rw [List.flatMap_cons, List.filter_append, ← ih]
    rfl

theorem mem_waifDefs {chain : List (ℤ × Object)} {p : Propdef} :
    p ∈ waifDefs chain ↔ (∃ a ∈ chain, p ∈ a.2.propdefs) ∧ p.isWaif = true := by
  rw [waifDefs_eq, List.mem_filter, List.mem_flatMap]

theorem waifDefs_renamed {p : Propdef} {new : Name} (hw : Waifs p.name new)
    {chain chain' : List (ℤ × Object)}
    (h : chain'.map (fun a => a.2.propdefs) = chain.map fun a => a.2.propdefs.map (p.renamed new)) :
    waifDefs chain' = (waifDefs chain).map (p.renamed new) := by
  have hx : chain'.flatMap (fun a => a.2.propdefs)
      = (chain.flatMap fun a => a.2.propdefs).map (p.renamed new) := by
    rw [List.flatMap_def, h, List.map_flatMap, List.flatMap_def]
  rw [waifDefs_eq, waifDefs_eq, hx, List.filter_map]
  congr 2
  exact funext fun q => renamed_isWaif hw q

namespace Db

open Forest

section Lines
variable {db : Db} (h : db.Sound)
include h

theorem waifDefs_names {i : ℤ} {chain : List (ℤ × Object)} (hl : db.Lineage i chain) :
    ((waifDefs chain).map (·.name)).Nodup := by
  have hn := names_nodup h hl
  have hs : ((chain.flatMap fun a => a.2.propdefs).map fun p => p.name.str.fold).Nodup := by
    rw [List.map_flatMap]
    exact hn
  rw [waifDefs_eq]
  apply List.Nodup.of_map (fun n : Name => n.str.fold)
  rw [List.map_map]
  exact hs.sublist (List.filter_sublist.map _)

/-- Who defines a property that stands in a list. -/
theorem mem_line {i j : ℤ} {o : Object} (ho : db.objects j = some o) {p : Propdef}
    (hp : p ∈ o.propdefs) (hw : p.isWaif = true) {chain : List (ℤ × Object)}
    (hl : db.Lineage i chain) (hi : (db.objects i).isSome = true) :
    p ∈ waifDefs chain ↔ Below nothing db.kin i j := by
  rw [mem_waifDefs]
  constructor
  · rintro ⟨⟨⟨k, ok⟩, hk, hpk⟩, -⟩
    obtain ⟨hok, -, hb⟩ := (hl.mem h.kin).mp hk
    exact h.named.single k j ok o hok ho p hpk p hp rfl ▸ hb
  · intro hb
    exact ⟨⟨(j, o), (hl.mem h.kin).mpr ⟨ho, hi, hb⟩, hp⟩, hw⟩

end Lines

section Fold
variable {p : Propdef} {new : Name}

/-- The step of `renamePropRecursively` at one object. -/
def renameAt (old new : Name) (db : Db) (d : ℤ × ℕ) : Result Db := do
  match (← db.object d.1).waifPropdefs with
  | some wpd => db.waifRenamePropdef d.1 wpd old new
  | none => return db

theorem renameAt_some {db : Db} {d : ℤ × ℕ} {o : Object} (ho : db.objects d.1 = some o) {w : ℕ}
    (hw : o.waifPropdefs = some w) (old : Name) :
    renameAt old new db d = db.waifRenamePropdef d.1 w old new := by
  rw [renameAt, object_ok ho]
  simp only [bind, Except.bind, hw]

theorem renameAt_none {db : Db} {d : ℤ × ℕ} {o : Object} (ho : db.objects d.1 = some o)
    (hw : o.waifPropdefs = none) (old : Name) : renameAt old new db d = .ok db := by
  rw [renameAt, object_ok ho]
  simp only [bind, Except.bind, hw]
  rfl

theorem waifRenamePropdef_found {db : Db} (hw : Waifs p.name new) {w : ℕ} (hm : p ∈ db.wpds w)
    (hn : ((db.wpds w).map (·.name)).Nodup) (i : ℤ) :
    db.waifRenamePropdef i w p.name new = .ok { db with
      wpds := Function.update db.wpds w ((db.wpds w).map (p.renamed new)) } := by
  rw [waifRenamePropdef, if_pos hw]
  cases hf : (db.wpds w).findIdx? (·.name = p.name) with
  | none =>
    have := List.findIdx?_eq_none_iff.mp hf p hm
    simp at this
  | some k =>
    obtain ⟨hk, he, -⟩ := List.findIdx?_eq_some_iff_getElem.mp hf
    have hkp : (db.wpds w)[k]? = some p := by
      rw [List.getElem?_eq_getElem hk, Option.some.injEq]
      exact List.inj_on_of_nodup_map hn (List.getElem_mem hk) hm (by simpa using he)
    have hmod := modify_once (.of_map _ hn) hkp fun q : Propdef => { q with name := new }
    simp only [hmod]
    rfl

/-- The lists of the objects on the way follow, and no other. -/
structure Followed (db db' : Db) (p : Propdef) (new : Name) (ds : List (ℤ × ℕ)) : Prop where
  objects : db'.objects = db.objects
  next : db'.nextWpd = db.nextWpd
  on : ∀ d ∈ ds, ∀ o, db.objects d.1 = some o → ∀ w, o.waifPropdefs = some w →
    db'.wpds w = (db.wpds w).map (p.renamed new)
  off : ∀ w, (∀ d ∈ ds, ∀ o, db.objects d.1 = some o → o.waifPropdefs ≠ some w) →
    db'.wpds w = db.wpds w

theorem renameAt_fold (db : Db) (hw : Waifs p.name new)
    (hapart : ∀ i j o o', db.objects i = some o → db.objects j = some o' → ∀ w,
      o.waifPropdefs = some w → o'.waifPropdefs = some w → i = j)
    {ds : List (ℤ × ℕ)} (hn : (ds.map Prod.fst).Nodup)
    (hd : ∀ d ∈ ds, ∃ o, db.objects d.1 = some o ∧ ∀ w, o.waifPropdefs = some w →
      p ∈ db.wpds w ∧ ((db.wpds w).map (·.name)).Nodup) :
    ∃ db', ds.foldlM (renameAt p.name new) db = .ok db' ∧ db.Followed db' p new ds := by
  induction ds generalizing db with
  | nil => exact ⟨db, rfl, rfl, rfl, by simp, fun _ _ => rfl⟩
  | cons d ds ih =>
    rw [List.map_cons, List.nodup_cons] at hn
    obtain ⟨o, ho, hlist⟩ := hd d (by simp)
    have hne : ∀ e ∈ ds, e.1 ≠ d.1 := fun e he heq => hn.1 (heq ▸ List.mem_map_of_mem he)
    cases hwo : o.waifPropdefs with
    | none =>
      obtain ⟨db', hfold, hf⟩ := ih db hapart hn.2 fun e he => hd e (List.mem_cons_of_mem _ he)
      refine ⟨db', ?_, hf.objects, hf.next, ?_, fun w hoff => hf.off w fun e he =>
        hoff e (List.mem_cons_of_mem _ he)⟩
      · rw [List.foldlM_cons, renameAt_none ho hwo]
        exact hfold
      · intro e he oe hoe w hwe
        rcases List.mem_cons.mp he with rfl|he
        · rw [Option.some.inj (ho.symm.trans hoe), hwe] at hwo
          cases hwo
        · exact hf.on e he oe hoe w hwe
    | some w =>
      obtain ⟨hm, hnames⟩ := hlist w hwo
      -- the lists of the objects that follow are others
      have hother : ∀ e ∈ ds, ∀ oe, db.objects e.1 = some oe → ∀ v, oe.waifPropdefs = some v →
          v ≠ w := by
        intro e he oe hoe v hv hvw
        exact hne e he (hapart e.1 d.1 oe o hoe ho v hv (hvw ▸ hwo))
      obtain ⟨db', hfold, hf⟩ := ih { db with
        wpds := Function.update db.wpds w ((db.wpds w).map (p.renamed new)) } hapart hn.2 fun e he => by
        obtain ⟨oe, hoe, hle⟩ := hd e (List.mem_cons_of_mem _ he)
        refine ⟨oe, hoe, fun v hv => ?_⟩
        simp only [Function.update_of_ne (hother e he oe hoe v hv)]
        exact hle v hv
      refine ⟨db', ?_, hf.objects, hf.next, ?_, fun v hoff => ?_⟩
      · rw [List.foldlM_cons, renameAt_some ho hwo, waifRenamePropdef_found hw hm hnames]
        exact hfold
      · intro e he oe hoe v hv
        rcases List.mem_cons.mp he with rfl|he
        · obtain rfl := Option.some.inj (ho.symm.trans hoe)
          obtain rfl := Option.some.inj (hwo.symm.trans hv)
          rw [hf.off w fun e he oe hoe hv => hother e he oe hoe w hv rfl]
          exact Function.update_self ..
        · rw [hf.on e he oe hoe v hv]
          exact congrArg _ (Function.update_of_ne (hother e he oe hoe v hv) ..)
      · rw [hf.off v fun e he => hoff e (List.mem_cons_of_mem _ he)]
        refine Function.update_of_ne (fun hvw => ?_) ..
        exact hoff d (by simp) o ho (hvw ▸ hwo)

/-- Where one of the names is not that of a waif property the lists on the way are dropped. -/
theorem renameAt_drop (db : Db) {old : Name} (hw : ¬Waifs old new) {ds : List (ℤ × ℕ)}
    (hd : ∀ d ∈ ds, (db.objects d.1).isSome = true) :
    ∃ db', ds.foldlM (renameAt old new) db = .ok db' ∧
      (db'.wpds = db.wpds ∧ db'.nextWpd = db.nextWpd) ∧
      ∀ i o, db'.objects i = some o → ∀ w, o.waifPropdefs = some w →
        db.objects i = some o ∧ i ∉ ds.map Prod.fst := by
  induction ds generalizing db with
  | nil => exact ⟨db, rfl, ⟨rfl, rfl⟩, fun i o ho w _ => ⟨ho, by simp⟩⟩
  | cons d ds ih =>
    obtain ⟨od, hod⟩ := Option.isSome_iff_exists.mp (hd d (by simp))
    cases hwo : od.waifPropdefs with
    | none =>
      obtain ⟨db', hfold, hheap, hlists⟩ := ih db fun e he => hd e (List.mem_cons_of_mem _ he)
      refine ⟨db', ?_, hheap, fun i o ho w hwi => ?_⟩
      · rw [List.foldlM_cons, renameAt_none hod hwo]
        exact hfold
      · obtain ⟨hio, hi⟩ := hlists i o ho w hwi
        refine ⟨hio, ?_⟩
        rw [List.map_cons, List.mem_cons, not_or]
        refine ⟨fun hid => ?_, hi⟩
        rw [hid, hod] at hio
        rw [← Option.some.inj hio, hwo] at hwi
        cases hwi
    | some v =>
      obtain ⟨db', hfold, hheap, hlists⟩ := ih
        (db.modify d.1 fun o => { o with waifPropdefs := none }) fun e he => by
          rw [modify_isSome]
          exact hd e (List.mem_cons_of_mem _ he)
      refine ⟨db', ?_, hheap, fun i o ho w hwi => ?_⟩
      · rw [List.foldlM_cons, renameAt_some hod hwo, waifRenamePropdef, if_neg hw]
        exact hfold
      · obtain ⟨hio, hi⟩ := hlists i o ho w hwi
        have hid : i ≠ d.1 := by
          intro hid
          rw [hid, modify_self hod] at hio
          rw [← Option.some.inj hio] at hwi
          cases hwi
        rw [modify_ne db hid] at hio
        rw [List.map_cons, List.mem_cons, not_or]
        exact ⟨hio, hid, hi⟩

end Fold

theorem Lineage.objects {db db' : Db} (he : db'.objects = db.objects) {i : ℤ}
    {chain : List (ℤ × Object)} (hl : db.Lineage i chain) : db'.Lineage i chain := by
  induction hl with
  | nil hn => exact .nil (by rw [he, hn])
  | cons ho _ ih => exact .cons (by rw [he, ho]) ih

section Rename
variable {db : Db} (h : db.Sound) {oid : ℤ} {o : Object} (ho : db.objects oid = some o) {i : ℕ}
  {p : Propdef} (hp : o.propdefs[i]? = some p) {new : Name}

/-- The database with the new name where the property is defined. -/
def retitle (db : Db) (oid : ℤ) (i : ℕ) (new : Name) : Db :=
  db.modify oid fun o => { o with
    propdefs := o.propdefs.modify i fun p => { p with name := new } }

theorem retitle_some {j : ℤ} {oj : Object} (hj : (db.retitle oid i new).objects j = some oj) :
    ∃ o', db.objects j = some o' ∧ oj.waifPropdefs = o'.waifPropdefs := by
  have := db.modify_field (·.waifPropdefs) (fun o : Object => { o with
    propdefs := o.propdefs.modify i fun p => { p with name := new } }) (fun _ => rfl) oid j
  rw [retitle] at hj
  rw [hj, Option.map_some, eq_comm, Option.map_eq_some_iff] at this
  obtain ⟨o', ho', hw⟩ := this
  exact ⟨o', ho', hw.symm⟩

include h ho hp

/-- A new name stands in every line where the old one did. -/
theorem line_renamed {db' : Db} (he : db'.objects = db.objects) (hw : Waifs p.name new) {j : ℤ}
    {chain chain' : List (ℤ × Object)} (hl : db.Lineage j chain)
    (hl' : (db'.retitle oid i new).Lineage j chain') :
    waifDefs chain' = (waifDefs chain).map (p.renamed new) := by
  let f : Object → Object := fun o => { o with
    propdefs := o.propdefs.modify i fun p => { p with name := new } }
  have hmod : (db'.modify oid f).Lineage j _ := (hl.objects he).modify (f := f) fun _ => rfl
  obtain rfl := hmod.unique hl'
  apply waifDefs_renamed hw
  rw [List.map_map]
  apply List.map_congr_left
  rintro ⟨k, ok⟩ hk
  obtain ⟨hok, -, -⟩ := (hl.mem h.kin).mp hk
  dsimp only [Function.comp]
  by_cases hko : k = oid
  · obtain rfl := hko
    obtain rfl := Option.some.inj (ho.symm.trans hok)
    rw [if_pos rfl]
    exact modify_once (.of_map _ (h.named.once _ _ ho)) hp _
  · rw [if_neg hko, renamed_of_notMem new fun hpk => hko (h.named.single k oid ok o hok ho p hpk p
      (List.mem_of_getElem? hp) rfl)]

/-- The lists are right again when all below have followed. -/
theorem Followed.coherent (hc : db.Coherent) (hw : Waifs p.name new) {ds : List (ℤ × ℕ)}
    (hv : db.Visits oid 0 ds) {db' : Db} (hf : db.Followed db' p new ds) :
    (db'.retitle oid i new).Coherent := by
  refine ⟨fun j oj hj w hwj => ?_, fun j oj hj w hwj chain' hl' => ?_,
    fun j k oj ok hj hk w hwj hwk => ?_⟩
  · obtain ⟨o', ho', he⟩ := retitle_some hj
    rw [hf.objects] at ho'
    exact lt_of_lt_of_eq (hc.made j o' ho' w (he ▸ hwj)) hf.next.symm
  · obtain ⟨o', ho', he⟩ := retitle_some hj
    rw [hf.objects] at ho'
    obtain ⟨chain, -, hl⟩ := ancestors_eq h.kin j
    have hlist := hc.list j o' ho' w (he ▸ hwj) chain hl
    rw [line_renamed h ho hp hf.objects hw hl hl', ← hlist]
    by_cases hm : j ∈ ds.map Prod.fst
    · obtain ⟨d, hd, rfl⟩ := List.mem_map.mp hm
      exact hf.on d hd o' ho' w (he ▸ hwj)
    · have hoff := hf.off w fun d hd od hod hwd => hm (hc.apart d.1 j od o' hod ho' w hwd (he ▸ hwj) ▸
        List.mem_map_of_mem hd)
      have hnot : p ∉ db.wpds w := by
        have hwaif : p.isWaif = true := by simp [Propdef.isWaif, hw.1]
        rw [hlist, mem_line h ho (List.mem_of_getElem? hp) hwaif hl (by simp [ho'])]
        exact fun hb => hm ((hv.mem j).mpr ⟨by simp [ho'], hb⟩)
      rw [renamed_of_notMem new hnot]
      exact hoff
  · obtain ⟨oj', hj', hej⟩ := retitle_some hj
    obtain ⟨ok', hk', hek⟩ := retitle_some hk
    rw [hf.objects] at hj' hk'
    exact hc.apart j k oj' ok' hj' hk' w (hej ▸ hwj) (hek ▸ hwk)

variable (new) in
theorem renamePropRecursively_tends (hc : db.Coherent) :
    ∃ db', db.renamePropRecursively oid p.name new = .ok db' ∧
      ((db'.retitle oid i new).Sound → db.Tends (db'.retitle oid i new)) := by
  obtain ⟨ds, hds, hv⟩ := subtree_eq h.kin 0 (show (db.objects oid).isSome = true by simp [ho])
  have hsome : ∀ d ∈ ds, (db.objects d.1).isSome = true :=
    fun d hd => ((hv.mem d.1).mp (List.mem_map_of_mem hd)).1
  by_cases hw : Waifs p.name new
  · obtain ⟨db', hfold, hf⟩ := renameAt_fold db hw hc.apart hv.nodup fun d hd => by
      obtain ⟨od, hod⟩ := Option.isSome_iff_exists.mp (hsome d hd)
      refine ⟨od, hod, fun w hwd => ?_⟩
      obtain ⟨chain, -, hl⟩ := ancestors_eq h.kin d.1
      have hwaif : p.isWaif = true := by simp [Propdef.isWaif, hw.1]
      rw [hc.list d.1 od hod w hwd chain hl]
      refine ⟨?_, waifDefs_names h hl⟩
      rw [mem_line h ho (List.mem_of_getElem? hp) hwaif hl (hsome d hd)]
      exact ((hv.mem d.1).mp (List.mem_map_of_mem hd)).2
    refine ⟨db', bind_ok.mpr ⟨ds, hds, hfold⟩, fun hs => ⟨hs, fun _ => hf.coherent h ho hp hc hw hv,
      le_of_eq hf.next.symm, fun w _ => ?_⟩⟩
    by_cases hex : ∃ d ∈ ds, ∃ od, db.objects d.1 = some od ∧ od.waifPropdefs = some w
    · obtain ⟨d, hd, od, hod, hwd⟩ := hex
      have := congrArg List.length (hf.on d hd od hod w hwd)
      rwa [List.length_map] at this
    · exact congrArg List.length (hf.off w fun d hd od hod hwd => hex ⟨d, hd, od, hod, hwd⟩)
  · obtain ⟨db', hfold, hheap, hlists⟩ := renameAt_drop db hw hsome
    have hrec : db.renamePropRecursively oid p.name new = .ok db' := bind_ok.mpr ⟨ds, hds, hfold⟩
    refine ⟨db', hrec, fun hs => Tends.ofRoot h.kin hs hheap oid (fun j hj => ?_)
      fun j oj hj w hwj => ?_⟩
    · have := (renamePropRecursively_rewired hrec).field Object.defs (fun _ => rfl) j
      rw [retitle, modify_ne _ hj]
      exact this
    · obtain ⟨o', ho', he⟩ := retitle_some hj
      obtain ⟨hjo, hnot⟩ := hlists j o' ho' w (he ▸ hwj)
      exact ⟨o', hjo, he ▸ hwj, fun hb => hnot ((hv.mem j).mpr ⟨by simp [hjo], hb⟩)⟩

omit hp in
/-- With the lists in order, a new name is refused or entered everywhere; nothing panics. -/
theorem renamePropdef_tends (hc : db.Coherent) (old : CStr) (new : Name) :
    ∃ r, db.renamePropdef oid old new = .ok r ∧ db.Tends r.2 := by
  have hex : ∃ r, db.renamePropdef oid old new = .ok r := by
    obtain ⟨found, hfound, -⟩ := findProperty_eq h.kin oid new.str
    obtain ⟨b, hb, -⟩ := definedAtOrBelow_eq h.kin (i := oid) (by simp [ho]) new.str
    rw [renamePropdef, object_ok ho]
    cases hf : o.propdefs.findIdx? (·.named old) with
    | none => exact ⟨_, by simp only [bind, Except.bind, hf]; rfl⟩
    | some k =>
      obtain ⟨hk, -⟩ := List.findIdx?_eq_some_iff_getElem.mp hf
      have hkp : o.propdefs[k]? = some o.propdefs[k] := List.getElem?_eq_getElem hk
      obtain ⟨db', hrec, -⟩ := renamePropRecursively_tends h ho hkp new hc
      simp only [bind, Except.bind, hf, hfound, hb, hkp, deref, hrec]
      split
      · split
        · exact ⟨_, rfl⟩
        · split <;> exact ⟨_, rfl⟩
      · exact ⟨_, rfl⟩
  obtain ⟨r, hr⟩ := hex
  refine ⟨r, hr, ?_⟩
  rcases renamePropdef_cases ho hr with rfl|⟨k, q, db', hq, -, -, hrec, rfl⟩
  · exact .refl h
  · obtain ⟨db1, hrec', ht⟩ := renamePropRecursively_tends h ho hq new hc
    obtain rfl := Except.ok.inj (hrec.symm.trans hrec')
    exact ht (renamePropdef_sound h ho hr)

end Rename

/-- A class without a list gets one of its own. -/
theorem classPropdefs_tends {db : Db} (h : db.Sound) {oid : ℤ} {o : Object}
    (ho : db.objects oid = some o) : ∃ r, classPropdefs db oid o = .ok r ∧ db.Tends r.2 ∧
      (db.Coherent → ∀ chain, r.2.Lineage oid chain → r.2.wpds r.1 = waifDefs chain) := by
  rw [classPropdefs]
  cases hwo : o.waifPropdefs with
  | some w => exact ⟨_, rfl, .refl h, fun hc chain hl => hc.list oid o ho w hwo chain hl⟩
  | none =>
    obtain ⟨chain, hchain, hl⟩ := ancestors_eq h.kin oid
    let f : Object → Object := fun o => { o with waifPropdefs := some db.nextWpd }
    let db' : Db := { db.modify oid f with
      wpds := Function.update db.wpds db.nextWpd (waifDefs chain)
      nextWpd := db.nextWpd+1 }
    have hgen : db.genWaifPropdefs oid = .ok db' := bind_ok.mpr ⟨chain, hchain, rfl⟩
    have hr : classPropdefs db oid o = .ok (db.nextWpd, db') := by
      rw [classPropdefs, hwo]
      exact bind_ok.mpr ⟨db', hgen, rfl⟩
    have hrw := classPropdefs_rewired hr
    -- an object of the new database has its old list, or is the class with the new one
    have hback : ∀ i oi, db'.objects i = some oi → ∀ w, oi.waifPropdefs = some w →
        (i = oid ∧ w = db.nextWpd) ∨
          i ≠ oid ∧ db.objects i = some oi := by
      intro i oi hi w hw
      by_cases hio : i = oid
      · subst hio
        have hself : db'.objects i = some (f o) := modify_self ho f
        rw [hself] at hi
        rw [← Option.some.inj hi] at hw
        exact .inl ⟨rfl, (Option.some.inj hw).symm⟩
      · exact .inr ⟨hio, (modify_ne db hio f).symm.trans hi⟩
    have hline : ∀ i xs ys, db.Lineage i xs → db'.Lineage i ys → waifDefs ys = waifDefs xs := by
      intro i xs ys hx hy
      have hmod : (db.modify oid f).Lineage i _ := hx.modify (f := f) fun _ => rfl
      have he : db'.objects = (db.modify oid f).objects := rfl
      have hmod' := hmod.objects he
      obtain rfl := hmod'.unique hy
      apply waifDefs_congr
      rw [List.map_map]
      apply List.map_congr_left
      intro a _
      dsimp only [Function.comp]
      split <;> rfl
    have hold : ∀ w, w < db.nextWpd → db'.wpds w = db.wpds w :=
      fun w hw => Function.update_of_ne (Nat.ne_of_lt hw) ..
    have hnew : db'.wpds db.nextWpd = waifDefs chain := Function.update_self ..
    refine ⟨_, bind_ok.mpr ⟨db', hgen, rfl⟩, ⟨hrw.sound h, fun hc => ⟨?_, ?_, ?_⟩, Nat.le_succ _,
      fun w hw => by rw [hold w hw]⟩, fun _ ys hy => ?_⟩
    · intro i oi hi w hw
      rcases hback i oi hi w hw with ⟨-, rfl⟩|⟨-, hi'⟩
      · exact Nat.lt_succ_self _
      · exact Nat.lt_succ_of_lt (hc.made i oi hi' w hw)
    · intro i oi hi w hw ys hy
      rcases hback i oi hi w hw with ⟨rfl, rfl⟩|⟨-, hi'⟩
      · rw [hnew, hline i chain ys hl hy]
      · obtain ⟨xs, -, hx⟩ := ancestors_eq h.kin i
        rw [hold w (hc.made i oi hi' w hw), hline i xs ys hx hy]
        exact hc.list i oi hi' w hw xs hx
    · intro i j oi oj hi hj w hwi hwj
      rcases hback i oi hi w hwi with ⟨rfl, rfl⟩|⟨-, hi'⟩
      · rcases hback j oj hj _ hwj with ⟨rfl, -⟩|⟨-, hj'⟩
        · rfl
        · exact absurd (hc.made j oj hj' _ hwj) (lt_irrefl _)
      · rcases hback j oj hj w hwj with ⟨-, rfl⟩|⟨-, hj'⟩
        · exact absurd (hc.made i oi hi' _ hwi) (lt_irrefl _)
        · exact hc.apart i j oi oj hi' hj' w hwi hwj
    · exact hnew.trans (hline oid chain ys hl hy).symm

theorem Reverbed.tends {db db' : Db} (h : db.Sound) (hv : db.Reverbed db') : db.Tends db' :=
  .ofSame h.kin (hv.sound h) hv.heap (hv.field _ fun _ => rfl)

/-- One operation keeps the lists in order. -/
theorem Step.tends {db db' : Db} (hs : Step db db') (h : db.Sound) (hc : db.Coherent) :
    db.Tends db' := by
  have done : ∀ {α : Type} {x : Result (α × Db)} {r : α × Db}, (∃ r, x = .ok r ∧ db.Tends r.2) →
      x = .ok r → db.Tends r.2 := by
    rintro α x r ⟨r', hr', ht⟩ hr
    rw [hr] at hr'
    rw [Except.ok.inj hr']
    exact ht
  cases hs with
  | createObject => exact createObject_tends h
  | create hr => exact done (create_tends _ h _ _ _) hr
  | chparent hr => exact done (chparent_tends h _ _ _) hr
  | move hnext hr =>
    obtain ⟨r, hr', hm⟩ := doMove_moved _ h.place hnext _ _ _ _
    exact done ⟨r, hr', hm.tends h⟩ hr
  | recycle hpc hr =>
    obtain ⟨r, hr', ht, -⟩ := recycle_tends _ h hpc _ _
    exact done ⟨r, hr', ht⟩ hr
  | renumber hr => exact done (renumber_tends h _ _) hr
  | resetLastUsedObjid hr => exact resetLastUsedObjid_tends h hr
  | addPropdef hv hval hr =>
    obtain ⟨o, ho⟩ := valid_some hv
    exact done (addPropdef_tends h ho _ hval _ _) hr
  | deletePropdef hv hr =>
    obtain ⟨o, ho⟩ := valid_some hv
    exact done (deletePropdef_tends h ho _) hr
  | renamePropdef hv hr =>
    obtain ⟨o, ho⟩ := valid_some hv
    exact done (renamePropdef_tends h ho hc _ _) hr
  | clearProp hr => exact done (clearProp_tends h _ _ _) hr
  | setValue hv hf hval hr =>
    obtain ⟨o, ho⟩ := valid_some hv
    obtain ⟨db', hr', ht, -⟩ := setSlot_tends h ho (findProperty_slot h hf).1 _ (.inl hval)
    rw [hr] at hr'
    rw [Except.ok.inj hr']
    exact ht
  | classPropdefs ho hr =>
    rw [find_eq] at ho
    obtain ⟨r, hr', ht, -⟩ := classPropdefs_tends h ho
    exact done ⟨r, hr', ht⟩ hr
  | findCallableVerb hr => exact (findCallableVerb_reverbed hr).tends h
  | @addVerb oid verb _ => exact (Reverbed.flush db oid (·++[verb])).tends h
  | deleteVerb hr => exact (deleteVerb_reverbed hr).1.tends h
  | setVerbNames definer => exact (Reverbed.flush db definer _).tends h
  | setVerbOwner definer => exact (Reverbed.modify db definer _).tends h
  | setVerbFlags definer => exact (Reverbed.flush db definer _).tends h
  | setVerbProgram definer => exact (Reverbed.modify db definer _).tends h
  | setVerbArgSpecs definer => exact (Reverbed.flush db definer _).tends h
  | other hl hu hheap ht hverbs hm =>
    refine .ofSame h.kin ((Step.other hl hu hheap ht hverbs hm).sound h) hheap fun i => ?_
    have hm := hm i
    cases ho : db.objects i with
    | none => rw [hl.none ho]
    | some o =>
      obtain ⟨o', ho', hk, -, hp⟩ := hl.some ho
      rw [ho, ho', Option.map_some, Option.map_some, Option.some.injEq, Prod.mk.injEq] at hm
      rw [ho', Option.map_some, Option.map_some, Object.defs, Object.defs, hk, hp, hm.2]

theorem Run.tends {db db' : Db} (hr : Run db db') (h : db.Sound) (hc : db.Coherent) :
    db.Tends db' := by
  induction hr with
  | refl => exact .refl h
  | tail _ hs ih => exact ih.trans (hs.tends ih.sound (ih.coherent hc))

theorem Tends.fits {db db' : Db} (ht : db.Tends db') {w : Waif} (hw : w.Fits db) : w.Fits db' where
  null := hw.null
  made wpd he := lt_of_lt_of_le (hw.made wpd he) ht.next
  count wpd he := by rw [ht.lengths wpd (hw.made wpd he), hw.count wpd he]

/-- A waif brought up to date has the list of its class, and that is the one the ancestors of the
class define. -/
theorem updateWaif_list {db db' : Db} (h : db.Sound) (hc : db.Coherent) {w w' : Waif}
    (hw : w.Fits db) (hu : updateWaif db w = .ok (db', w')) : w'.Fits db' ∧ db'.Coherent ∧
      ∀ wpd, w'.propdefs = some wpd → ∀ chain, db'.Lineage w.cls chain →
        db'.wpds wpd = waifDefs chain := by
  refine ⟨(updateWaif_fits hc.made hw hu).2.1, ?_⟩
  rcases updateWaif_cases hu with ⟨-, rfl, rfl⟩|⟨o, ho, hp, rfl, rfl⟩|⟨o, wpd, ho, -, hcl, hr⟩
  · refine ⟨hc, fun wpd he => ?_⟩
    cases he
  · exact ⟨hc, fun wpd he chain hl => hc.list w'.cls o ho wpd (hp ▸ he) chain hl⟩
  · obtain ⟨r, hr', ht, hlist⟩ := classPropdefs_tends h ho
    obtain rfl := Except.ok.inj (hr'.symm.trans hcl)
    obtain ⟨-, -, hpd, -⟩ := remap_fields hr
    refine ⟨ht.coherent hc, fun v hv chain hl => ?_⟩
    obtain rfl := Option.some.inj (hpd.symm.trans hv)
    exact hlist hc chain hl

theorem empty_coherent : empty.Coherent where
  made _ _ ho := by cases ho
  list _ _ ho := by cases ho
  apart _ _ _ _ ho := by cases ho

end Db
end LambdaMoo.Database
