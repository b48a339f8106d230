import LambdaMoo.Sound

/-!
# Lists of waif properties

An object that points to a list of waif properties points to the one that its
ancestors define, and no other object points to the same. A change of the
definitions of an object drops the lists of all objects below it.
-/

set_option autoImplicit false

namespace LambdaMoo.Database

/-- The waif properties that these objects define, in order. -/
def waifDefs (chain : List (ℤ × Object)) : List Propdef :=
  chain.flatMap fun a => a.2.propdefs.filter (·.isWaif)

theorem waifDefs_congr {xs ys : List (ℤ × Object)}
    (h : xs.map (fun a => a.2.propdefs) = ys.map fun a => a.2.propdefs) :
    waifDefs xs = waifDefs ys := by
  have := congrArg (List.flatMap fun ps : List Propdef => ps.filter (·.isWaif)) h
  rw [List.flatMap_map, List.flatMap_map] at this
  exact this

namespace Db

open Forest

structure Coherent (db : Db) : Prop where
  made : ∀ i o, db.objects i = some o → ∀ w, o.waifPropdefs = some w → w < db.nextWpd
  list : ∀ i o, db.objects i = some o → ∀ w, o.waifPropdefs = some w →
    ∀ chain, db.Lineage i chain → db.wpds w = waifDefs chain
  apart : ∀ i j o o', db.objects i = some o → db.objects j = some o' → ∀ w,
    o.waifPropdefs = some w → o'.waifPropdefs = some w → i = j

/-- What an operation leaves: a sound database, with lists of waif properties that are right if
they were, and of the lengths they had. -/
structure Tends (db db' : Db) : Prop where
  sound : db'.Sound
  coherent : db.Coherent → db'.Coherent
  next : db.nextWpd ≤ db'.nextWpd
  lengths : ∀ w, w < db.nextWpd → (db'.wpds w).length = (db.wpds w).length

namespace Tends
variable {db db' : Db}

theorem refl (h : db.Sound) : db.Tends db := ⟨h, fun hc => hc, le_refl _, fun _ _ => rfl⟩

theorem trans {db'' : Db} (h : db.Tends db') (h' : db'.Tends db'') : db.Tends db'' :=
  ⟨h'.sound, fun hc => h'.coherent (h.coherent hc), h.next.trans h'.next, fun w hw =>
    (h'.lengths w (lt_of_lt_of_le hw h.next)).trans (h.lengths w hw)⟩

/-- Where only the definitions and the parent of one object change, and all below it lose their
lists. -/
theorem ofRoot (hf : IsForest nothing db.kin) (hs : db'.Sound)
    (hheap : db'.wpds = db.wpds ∧ db'.nextWpd = db.nextWpd) (root : ℤ)
    (hdefs : ∀ i, i ≠ root → (db'.objects i).map Object.defs = (db.objects i).map Object.defs)
    (hlists : ∀ i o', db'.objects i = some o' → ∀ w, o'.waifPropdefs = some w →
      ∃ o, db.objects i = some o ∧ o.waifPropdefs = some w ∧ ¬Below nothing db.kin i root) :
    db.Tends db' := by
  refine ⟨hs, fun hc => ⟨fun i o' ho' w hw => ?_, fun i o' ho' w hw chain' hl' => ?_,
    fun i j oi oj hi hj w hwi hwj => ?_⟩, le_of_eq hheap.2.symm, fun w _ => by rw [hheap.1]⟩
  · obtain ⟨o, ho, hw, -⟩ := hlists i o' ho' w hw
    rw [hheap.2]
    exact hc.made i o ho w hw
  · obtain ⟨o, ho, hw, hnot⟩ := hlists i o' ho' w hw
    obtain ⟨chain, -, hl⟩ := ancestors_eq hf i
    obtain ⟨chain2, hl2, hm⟩ := hl.same (·.propdefs) hdefs hnot
    obtain rfl := hl2.unique hl'
    have hm := congrArg (List.map Prod.snd) hm
    rw [List.map_map, List.map_map] at hm
    rw [hheap.1, hc.list i o ho w hw chain hl]
    exact (waifDefs_congr hm).symm
  · obtain ⟨oi', hi', hwi', -⟩ := hlists i oi hi w hwi
    obtain ⟨oj', hj', hwj', -⟩ := hlists j oj hj w hwj
    exact hc.apart i j oi' oj' hi' hj' w hwi' hwj'

/-- Where nothing changes that the lists depend on. -/
theorem ofSame (hf : IsForest nothing db.kin) (hs : db'.Sound)
    (hheap : db'.wpds = db.wpds ∧ db'.nextWpd = db.nextWpd)
    (hsame : ∀ i, (db'.objects i).map (fun o => (o.defs, o.waifPropdefs)) =
      (db.objects i).map fun o => (o.defs, o.waifPropdefs)) : db.Tends db' := by
  refine ofRoot hf hs hheap nothing (fun i _ => ?_) fun i o' ho' w hw => ?_
  · have := congrArg (Option.map Prod.fst) (hsame i)
    rw [Option.map_map, Option.map_map] at this
    exact this
  · have hi := hsame i
    rw [ho', Option.map_some, eq_comm, Option.map_eq_some_iff] at hi
    obtain ⟨o, ho, he⟩ := hi
    refine ⟨o, ho, (Prod.mk.inj he).2.trans hw, fun hb => ?_⟩
    rcases Relation.ReflTransGen.cases_tail hb with hn|⟨c, -, hc⟩
    · rw [← hn, nothing_free] at ho
      cases ho
    · obtain ⟨-, -, -, hne⟩ := above_iff.mp hc
      exact hne rfl

end Tends

/-- Where the definitions or the parent of an object change, and then a walk over it and the objects
below it drops their lists. -/
theorem Patch.tends {db db1 db2 : Db} {root : ℤ} {pos : ℕ} {ds : List (ℤ × ℕ)}
    {Q : ℤ × ℕ → Object → Object → Prop} (hp : db1.Patch db2 ds Q) (hf : IsForest nothing db.kin)
    (hs : db2.Sound) (hheap : db1.wpds = db.wpds ∧ db1.nextWpd = db.nextWpd)
    (hother : ∀ i, i ≠ root → (db1.objects i).map (fun o => (o.defs, o.waifPropdefs)) =
      (db.objects i).map fun o => (o.defs, o.waifPropdefs))
    (hr : (db.objects root).isSome = true) (hv : db.Visits root pos ds)
    (hQ : ∀ d o o', Q d o o' → o'.shape = o.shape ∧ o'.waifPropdefs = none) : db.Tends db2 := by
  have hlike := hp.like fun d o o' hq => (hQ d o o' hq).1
  refine Tends.ofRoot hf hs ⟨hp.heap.1.trans hheap.1, hp.heap.2.trans hheap.2⟩ root
    (fun i hi => ?_) fun i o2 ho2 w hw => ?_
  · have h1 := congrArg (Option.map Prod.fst) (hother i hi)
    have h2 := congrArg (Option.map fun s => (s.1.up, s.2.2)) (hlike.shape i)
    rw [Option.map_map, Option.map_map] at h1 h2
    exact h2.trans h1
  · have hnot : i ∉ ds.map Prod.fst := by
      intro hm
      obtain ⟨d, hd, rfl⟩ := List.mem_map.mp hm
      obtain ⟨o1, ho1, -⟩ := hlike.symm.some ho2
      obtain ⟨o3, ho3, hq⟩ := hp.on d hd o1 ho1
      obtain rfl := Option.some.inj (ho2.symm.trans ho3)
      rw [(hQ d o1 o2 hq).2] at hw
      cases hw
    have hroot : root ∈ ds.map Prod.fst := (hv.mem root).mpr ⟨hr, .refl⟩
    have hi : i ≠ root := by
      rintro rfl
      exact hnot hroot
    have ho := hother i hi
    rw [← hp.off i hnot, ho2, Option.map_some, eq_comm, Option.map_eq_some_iff] at ho
    obtain ⟨o, ho, he⟩ := ho
    refine ⟨o, ho, (Prod.mk.inj he).2.trans hw, fun hb => ?_⟩
    exact hnot ((hv.mem i).mpr ⟨by simp [ho], hb⟩)

end Db
end LambdaMoo.Database
