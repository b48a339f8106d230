import LambdaMoo.Lineage

/-!
# Changes to the slots of objects

The operations on properties go through an object and its descendants and
rewrite the slots of each. Nothing else of the objects changes, so the walks
up and down stay the same.
-/

set_option autoImplicit false

namespace LambdaMoo.Database

/-- What the walks look at. -/
def Object.shape (o : Object) : Forest.Links ℤ × Forest.Links ℤ × List Propdef :=
  (o.kin, o.place, o.propdefs)

namespace Db

open Forest

/-- The same hierarchies and the same definitions. -/
structure Like (db db' : Db) : Prop where
  size : db'.numObjects = db.numObjects
  shape : ∀ i, (db'.objects i).map Object.shape = (db.objects i).map Object.shape

namespace Like
variable {db db' : Db}

theorem refl (db : Db) : db.Like db := ⟨rfl, fun _ => rfl⟩

theorem symm (h : db.Like db') : db'.Like db := ⟨h.size.symm, fun i => (h.shape i).symm⟩

theorem trans {db'' : Db} (h : db.Like db') (h' : db'.Like db'') : db.Like db'' :=
  ⟨h'.size.trans h.size, fun i => (h'.shape i).trans (h.shape i)⟩

theorem some (h : db.Like db') {i : ℤ} {o : Object} (ho : db.objects i = some o) :
    ∃ o', db'.objects i = some o' ∧ o'.kin = o.kin ∧ o'.place = o.place ∧
      o'.propdefs = o.propdefs := by
  have hs := h.shape i
  rw [ho, Option.map_some, Option.map_eq_some_iff] at hs
  obtain ⟨o', ho', hs⟩ := hs
  simp only [Object.shape, Prod.mk.injEq] at hs
  exact ⟨o', ho', hs.1, hs.2.1, hs.2.2⟩

theorem isSome (h : db.Like db') (i : ℤ) : (db'.objects i).isSome = (db.objects i).isSome := by
  have hs := congrArg Option.isSome (h.shape i)
  simpa using hs

theorem none (h : db.Like db') {i : ℤ} (hi : db.objects i = none) : db'.objects i = none := by
  have := h.isSome i
  rw [hi, Option.isSome_none] at this
  exact Option.isNone_iff_eq_none.mp (by simpa using this)

theorem kin_eq (h : db.Like db') : db'.kin = db.kin := by
  funext i
  have hs := congrArg (Option.map fun s => s.1) (h.shape i)
  rw [Option.map_map, Option.map_map] at hs
  exact hs

theorem place_eq (h : db.Like db') : db'.place = db.place := by
  funext i
  have hs := congrArg (Option.map fun s => s.2.1) (h.shape i)
  rw [Option.map_map, Option.map_map] at hs
  exact hs

theorem lineage (h : db.Like db') {i : ℤ} {chain : List (ℤ × Object)} (hl : db.Lineage i chain) :
    ∃ chain', db'.Lineage i chain' ∧
      chain'.map (fun a => (a.1, a.2.propdefs)) = chain.map fun a => (a.1, a.2.propdefs) := by
  induction hl with
  | nil hn => exact ⟨[], .nil (h.none hn), rfl⟩
  | cons ho _ ih =>
    obtain ⟨o', ho', hk, -, hp⟩ := h.some ho
    obtain ⟨rest, hr, he⟩ := ih
    exact ⟨_, .cons ho' (hk ▸ hr), by rw [List.map_cons, List.map_cons, he, hp]⟩

theorem countProperties (h : db.Like db') (hf : IsForest nothing db.kin) (i : ℤ) :
    db'.countProperties i = db.countProperties i := by
  obtain ⟨chain, -, hl⟩ := ancestors_eq hf i
  obtain ⟨chain', hl', he⟩ := h.lineage hl
  have hf' : IsForest nothing db'.kin := h.kin_eq ▸ hf
  rw [hl.countProperties hf, hl'.countProperties hf']
  have := congrArg (List.map fun a => a.2.length) he
  rw [List.map_map, List.map_map] at this
  exact congrArg (fun l => Except.ok (List.sum l)) this

end Like

theorem modify_like (db : Db) (oid : ℤ) {f : Object → Object} (hf : ∀ o, (f o).shape = o.shape) :
    db.Like (db.modify oid f) :=
  ⟨rfl, fun i => db.modify_field Object.shape f hf oid i⟩

section Count
variable {db : Db} {root : ℤ} {f : Object → Object} (hk : ∀ o, (f o).kin = o.kin)
include hk

theorem modify_kin : (db.modify root f).kin = db.kin := by
  funext i
  exact db.modify_field (·.kin) f hk root i

theorem Lineage.modify {i : ℤ} {chain : List (ℤ × Object)} (hl : db.Lineage i chain) :
    (db.modify root f).Lineage i (chain.map fun a => if a.1 = root then (a.1, f a.2) else a) := by
  induction hl with
  | @nil i hn =>
    have hs := db.modify_isSome root i f
    rw [hn, Option.isSome_none, Option.isSome_eq_false_iff, Option.isNone_iff_eq_none] at hs
    exact .nil hs
  | @cons i o rest ho _ ih =>
    rw [List.map_cons]
    by_cases h : i = root
    · subst h
      rw [if_pos rfl]
      exact .cons (modify_self ho f) (by rw [hk]; exact ih)
    · rw [if_neg h]
      exact .cons ((modify_ne db h f).trans ho) ih

/-- The number of properties below an object when the number it defines changes. -/
theorem count_modify (hf : IsForest nothing db.kin) {o : Object} (ho : db.objects root = some o)
    {a b : ℕ} (hlen : (f o).propdefs.length+a = o.propdefs.length+b) {i : ℤ}
    (hi : (db.objects i).isSome = true) (hb : Below nothing db.kin i root) {n : ℕ}
    (hn : db.countProperties i = .ok n) :
    ∃ n', (db.modify root f).countProperties i = .ok n' ∧ n'+a = n+b := by
  have hf' : IsForest nothing (db.modify root f).kin := by
    rw [modify_kin hk]
    exact hf
  obtain ⟨chain, -, hl⟩ := ancestors_eq hf i
  rw [hl.countProperties hf] at hn
  refine ⟨_, (hl.modify hk).countProperties hf', ?_⟩
  rw [← Except.ok.inj hn]
  let g : ℤ × Object → ℕ := fun x => x.2.propdefs.length
  let u : ℤ × Object → ℤ × Object := fun x => if x.1 = root then (x.1, f x.2) else x
  have key : ∀ {j : ℤ} {xs : List (ℤ × Object)}, db.Lineage j xs →
      (¬((db.objects j).isSome = true ∧ Below nothing db.kin j root) →
        ((xs.map u).map g).sum = (xs.map g).sum) ∧
      ((db.objects j).isSome = true ∧ Below nothing db.kin j root →
        ((xs.map u).map g).sum+a = (xs.map g).sum+b) := by
    intro j xs hj
    induction hj with
    | nil hnone => simp [hnone]
    | @cons j oj rest hoj _ ih =>
      simp only [List.map_cons, List.sum_cons]
      by_cases hjr : j = root
      · subst hjr
        obtain rfl := Option.some.inj (ho.symm.trans hoj)
        have hup : ¬((db.objects o.kin.up).isSome = true ∧ Below nothing db.kin o.kin.up j) := by
          rintro ⟨hs, hbu⟩
          have hne : o.kin.up ≠ nothing := by
            intro h0
            rw [h0, nothing_free] at hs
            cases hs
          exact hf.irrefl (above_iff.mpr ⟨o, ho, rfl, hne⟩) hbu
        refine ⟨fun h => absurd ⟨by simp [ho], .refl⟩ h, fun _ => ?_⟩
        rw [ih.1 hup]
        simp only [u, if_true, g]
        omega
      · have hsame : (db.objects oj.kin.up).isSome = true ∧ Below nothing db.kin oj.kin.up root ↔
            (db.objects j).isSome = true ∧ Below nothing db.kin j root := by
          constructor
          · rintro ⟨hs, hbu⟩
            have hne : oj.kin.up ≠ nothing := by
              intro h0
              rw [h0, nothing_free] at hs
              cases hs
            exact ⟨by simp [hoj], .head (above_iff.mpr ⟨oj, hoj, rfl, hne⟩) hbu⟩
          · rintro ⟨-, hbj⟩
            rcases Relation.ReflTransGen.cases_head hbj with he|⟨k, hk', hbk⟩
            · exact absurd he hjr
            · obtain ⟨o', ho', rfl, hne⟩ := above_iff.mp hk'
              obtain rfl := Option.some.inj (hoj.symm.trans ho')
              refine ⟨?_, hbk⟩
              rw [← kin_isSome]
              exact (hf.up j oj.kin (kin_some hoj)).resolve_left hne
        rw [← hsame]
        have hu : u (j, oj) = (j, oj) := if_neg hjr
        rw [hu]
        refine ⟨fun h => by rw [ih.1 h], fun h => ?_⟩
        have := ih.2 h
        omega
  exact (key hl).2 ⟨hi, hb⟩

end Count

/-- The objects of a list were changed as `Q` says, and nothing else was. -/
structure Patch (db db' : Db) (ds : List (ℤ × ℕ)) (Q : ℤ × ℕ → Object → Object → Prop) : Prop where
  size : db'.numObjects = db.numObjects
  uid : db'.nextUid = db.nextUid
  heap : db'.wpds = db.wpds ∧ db'.nextWpd = db.nextWpd
  isSome : ∀ i, (db'.objects i).isSome = (db.objects i).isSome
  off : ∀ i, i ∉ ds.map Prod.fst → db'.objects i = db.objects i
  on : ∀ d ∈ ds, ∀ o, db.objects d.1 = some o → ∃ o', db'.objects d.1 = some o' ∧ Q d o o'

theorem Patch.like {db db' : Db} {ds : List (ℤ × ℕ)} {Q : ℤ × ℕ → Object → Object → Prop}
    (h : db.Patch db' ds Q) (hQ : ∀ d o o', Q d o o' → o'.shape = o.shape) : db.Like db' := by
  refine ⟨h.size, fun i => ?_⟩
  by_cases hi : i ∈ ds.map Prod.fst
  · obtain ⟨d, hd, rfl⟩ := List.mem_map.mp hi
    cases ho : db.objects d.1 with
    | none =>
      have hn := h.isSome d.1
      rw [ho, Option.isSome_none, Option.isSome_eq_false_iff, Option.isNone_iff_eq_none] at hn
      rw [hn]
    | some o =>
      obtain ⟨o', ho', hq⟩ := h.on d hd o ho
      rw [ho', Option.map_some, Option.map_some, hQ d o o' hq]
  · rw [h.off i hi]

theorem Patch.imp {db db' : Db} {ds : List (ℤ × ℕ)} {Q Q' : ℤ × ℕ → Object → Object → Prop}
    (h : db.Patch db' ds Q)
    (hQ : ∀ d ∈ ds, ∀ o o', db.objects d.1 = some o → Q d o o' → Q' d o o') :
    db.Patch db' ds Q' := by
  refine ⟨h.size, h.uid, h.heap, h.isSome, h.off, ?_⟩
  intro d hd o ho
  obtain ⟨o', ho', hq⟩ := h.on d hd o ho
  exact ⟨o', ho', hQ d hd o o' ho hq⟩

section Fold
variable {db : Db} {Q : ℤ × ℕ → Object → Object → Prop}

theorem Patch.refl (db : Db) (Q : ℤ × ℕ → Object → Object → Prop) : db.Patch db [] Q :=
  ⟨rfl, rfl, ⟨rfl, rfl⟩, fun _ => rfl, fun _ _ => rfl, by simp⟩

theorem Patch.modify {db' : Db} {pre : List (ℤ × ℕ)} (h : db.Patch db' pre Q) {d : ℤ × ℕ}
    (hd : d.1 ∉ pre.map Prod.fst) {o : Object} (ho : db.objects d.1 = some o)
    {f : Object → Object} (hq : Q d o (f o)) : db.Patch (db'.modify d.1 f) (pre++[d]) Q := by
  have ho' : db'.objects d.1 = some o := (h.off d.1 hd).trans ho
  refine ⟨h.size, h.uid, h.heap, fun i => ?_, fun i hi => ?_, fun e he oe hoe => ?_⟩
  · rw [modify_isSome, h.isSome]
  · rw [List.map_append, List.mem_append, not_or] at hi
    have hne : i ≠ d.1 := by simpa using hi.2
    rw [modify_ne _ hne, h.off i hi.1]
  · rcases List.mem_append.mp he with he|he
    · have hne : e.1 ≠ d.1 := fun heq => hd (heq ▸ List.mem_map_of_mem he)
      rw [modify_ne _ hne]
      exact h.on e he oe hoe
    · obtain rfl := List.mem_singleton.mp he
      obtain rfl := Option.some.inj (ho.symm.trans hoe)
      exact ⟨f o, modify_self ho' f, hq⟩

/-- A walk that changes one object after the other patches them all. -/
theorem foldlM_patch (db : Db) (step : Db → ℤ × ℕ → Result Db)
    (Q : ℤ × ℕ → Object → Object → Prop) {ds : List (ℤ × ℕ)} (hn : (ds.map Prod.fst).Nodup)
    (hsome : ∀ d ∈ ds, (db.objects d.1).isSome = true)
    (hstep : ∀ pre d post db', ds = pre++d::post → db.Patch db' pre Q →
      ∀ o, db.objects d.1 = some o → db'.objects d.1 = some o →
        ∃ f, step db' d = .ok (db'.modify d.1 f) ∧ Q d o (f o)) :
    ∃ db', ds.foldlM step db = .ok db' ∧ db.Patch db' ds Q := by
  have key : ∀ pre post, ds = pre++post →
      ∃ db', pre.foldlM step db = .ok db' ∧ db.Patch db' pre Q := by
    intro pre
    induction pre using List.reverseRecOn with
    | nil => exact fun _ _ => ⟨db, rfl, .refl db Q⟩
    | append_singleton pre d ih =>
      intro post hds
      rw [List.append_assoc, List.singleton_append] at hds
      obtain ⟨db', hfold, hp⟩ := ih (d::post) hds
      obtain ⟨o, ho⟩ := Option.isSome_iff_exists.mp (hsome d (by simp [hds]))
      have hd : d.1 ∉ pre.map Prod.fst := by
        rw [hds, List.map_append, List.map_cons] at hn
        exact fun hm => (List.nodup_append.mp hn).2.2 _ hm _ (by simp) rfl
      obtain ⟨f, hf, hq⟩ := hstep pre d post db' hds hp o ho ((hp.off d.1 hd).trans ho)
      refine ⟨db'.modify d.1 f, ?_, hp.modify hd ho hq⟩
      rw [List.foldlM_append]
      exact bind_ok.mpr ⟨db', hfold, bind_ok.mpr ⟨_, hf, rfl⟩⟩
  exact key ds [] (by simp)

end Fold

end Db
end LambdaMoo.Database
