import LambdaMoo.WaifLoaded
import LambdaMoo.WaifSaving

/-!
# A save comes to an end

A waif enters the table before its values are written, so that with every one
that is entered fewer are left. Nothing the writer follows is missing when no
value refers to a waif that is not there.
-/

set_option autoImplicit false

namespace LambdaMoo.Database

/-- The waifs that are there. -/
def World.refs (s : World) : List WaifRef :=
  ((List.range s.next).map WaifRef.mk).filter fun r => (s.waifs r).isSome

theorem World.mem_refs {s : World} {r : WaifRef} : r ∈ s.refs ↔ (s.waifs r).isSome = true := by
  rw [refs, List.mem_filter, and_iff_right_iff_imp]
  intro hr
  exact List.mem_map.mpr ⟨r.ptr, List.mem_range.mpr (s.bounded r hr), rfl⟩

theorem World.refs_length (s : World) : s.refs.length ≤ s.next := by
  have hl := List.length_filter_le (fun r => (s.waifs r).isSome) ((List.range s.next).map WaifRef.mk)
  rwa [List.length_map, List.length_range] at hl

namespace Db

open Forest

/-- The lists of waif properties that there are now were there before or were made for an object. -/
def Listed (db db' : Db) : Prop :=
  ∀ p, p < db'.nextWpd → (p < db.nextWpd ∧ db'.wpds p = db.wpds p) ∨
    ∃ i chain, db.Lineage i chain ∧ db'.wpds p = waifDefs chain

theorem Listed.refl (db : Db) : db.Listed db := fun _ hp => .inl ⟨hp, rfl⟩

theorem classPropdefs_ends {db : Db} (hf : IsForest nothing db.kin) (oid : ℤ) (o : Object) :
    ∃ wpd db', db.classPropdefs oid o = .ok (wpd, db') ∧ db.Listed db' := by
  rw [classPropdefs]
  cases o.waifPropdefs with
  | some wpd => exact ⟨wpd, db, rfl, .refl db⟩
  | none =>
    obtain ⟨chain, hchain, hl⟩ := ancestors_eq hf oid
    refine ⟨_, _, bind_ok.mpr ⟨_, bind_ok.mpr ⟨chain, hchain, rfl⟩, rfl⟩, fun p hp => ?_⟩
    have hp : p < db.nextWpd+1 := hp
    by_cases he : p = db.nextWpd
    · subst he
      exact .inr ⟨oid, chain, hl, Function.update_self ..⟩
    · exact .inl ⟨by omega, Function.update_of_ne he ..⟩

end Db

/-- A waif can be brought up to date. -/
theorem updateWaif_ends {db : Db} (hf : Forest.IsForest nothing db.kin) {w : Waif}
    (hw : w.Fits db) : ∃ db' w', updateWaif db w = .ok (db', w') ∧ db.Rewired db' ∧ db.Listed db' := by
  rw [updateWaif, db.find_eq]
  cases ho : db.objects w.cls with
  | none => exact ⟨_, _, rfl, .refl db, .refl db⟩
  | some o =>
    dsimp only
    split
    · exact ⟨_, _, rfl, .refl db, .refl db⟩
    · obtain ⟨wpd, db', hc, hlisted⟩ := Db.classPropdefs_ends hf w.cls o
      have hfit := hw.grown (Db.classPropdefs_grown ho hc).1
      obtain ⟨w', hr⟩ := remap_ok hfit.count hfit.null wpd
      exact ⟨db', w', bind_ok.mpr ⟨_, hc, bind_ok.mpr ⟨w', hr, rfl⟩⟩, Db.classPropdefs_rewired hc,
        hlisted⟩

end LambdaMoo.Database

namespace LambdaMoo.WaifFile
open LambdaMoo.DbIo LambdaMoo.Database LambdaMoo.Database.World

/-- The waifs that are there are `refs`, and no value refers to another; every list of waif
properties that there is or that can be made has an `int` for a length. -/
structure Whole (refs : List WaifRef) (s : Saving) : Prop where
  ok : s.world.Ok
  kin : Forest.IsForest Database.nothing s.world.db.kin
  there : ∀ r, (s.world.waifs r).isSome = true ↔ r ∈ refs
  closed : ∀ r w, s.world.waifs r = some w → ∀ v ∈ w.propvals, Within refs v
  nodup : s.saved.Nodup
  saved : s.saved ⊆ refs
  lists : ∀ p, p < s.world.db.nextWpd → (s.world.db.wpds p).length < 2^31
  defs : ∀ i chain, s.world.db.Lineage i chain → (waifDefs chain).length < 2^31

theorem Whole.length_le {refs : List WaifRef} {s : Saving} (h : Whole refs s) :
    s.saved.length ≤ refs.length := (List.subperm_of_subset h.nodup h.saved).length_le

/-- A waif that is there can enter the table. -/
theorem Whole.enter {refs : List WaifRef} {s : Saving} (h : Whole refs s) {w : WaifRef}
    (hw : w ∉ s.saved) (hr : w ∈ refs) : ∃ world waif, s.world.updateWaifPropdefs w = .ok world ∧
      world.waif w = .ok waif ∧ Whole refs ⟨world, s.saved++[w]⟩ := by
  obtain ⟨waif, hwaif⟩ := Option.isSome_iff_exists.mp ((h.there w).mpr hr)
  obtain ⟨db', waif', hup, hrw, hlisted⟩ := updateWaif_ends h.kin (h.ok.fits w waif hwaif)
  have hu := updateWaifPropdefs_ok.mpr ⟨waif, db', waif', hwaif, hup, rfl⟩
  have hself : ({ s.world with db := db' }.setWaif w waif').waifs w = some waif' :=
    setWaif_self hwaif waif'
  have hother : ∀ r, r ≠ w → ({ s.world with db := db' }.setWaif w waif').waifs r = s.world.waifs r :=
    fun r hne => setWaif_ne { s.world with db := db' } hne waif'
  refine ⟨_, waif', hu, waif_ok.mpr hself, ?_⟩
  constructor
  · exact h.ok.update hu
  · exact hrw.like.kin_eq ▸ h.kin
  · intro r
    by_cases hne : r = w
    · subst hne
      simp only [hself, hr, Option.isSome_some]
    · rw [hother r hne]
      exact h.there r
  · intro r x hx v hv
    by_cases hne : r = w
    · subst hne
      obtain rfl := Option.some.inj (hself.symm.trans hx)
      rcases updateWaif_mem hup v hv with hv|rfl
      · exact h.closed r waif hwaif v hv
      · simp [Within]
    · exact h.closed r x ((hother r hne).symm.trans hx) v hv
  · exact List.Nodup.append h.nodup (List.nodup_singleton w) (by simpa using hw)
  · exact List.append_subset.mpr ⟨h.saved, by simpa using hr⟩
  · intro p hp
    rcases hlisted p hp with ⟨hp, he⟩|⟨i, chain, hl, he⟩
    · exact lt_of_eq_of_lt (congrArg List.length he) (h.lists p hp)
    · exact lt_of_eq_of_lt (congrArg List.length he) (h.defs i chain hl)
  · intro i chain hl
    obtain ⟨old, hold, -⟩ := hrw.like.symm.lineage hl
    rw [waifDefs_like hrw.like hold hl]
    exact h.defs i old hold

/-- A routine writes its text from every table that leaves it room for the waifs to come. -/
def Completes (refs : List WaifRef) (n : ℕ) (write : Saving → Result (List Byte × Saving)) : Prop :=
  ∀ s, Whole refs s → refs.length < n+s.saved.length → ∃ bs s', write s = .ok (bs, s') ∧
    Whole refs s' ∧ s.saved.length ≤ s'.saved.length

namespace Completes
variable {refs : List WaifRef} {n : ℕ} {f g : Saving → Result (List Byte × Saving)}

theorem pure (bs : List Byte) : Completes refs n fun s => .ok (bs, s) :=
  fun s h _ => ⟨bs, s, rfl, h, le_rfl⟩

theorem seq (hf : Completes refs n f) (hg : Completes refs n g)
    (k : List Byte → List Byte → List Byte) :
    Completes refs n fun s => do let r ← f s; let t ← g r.2; return (k r.1 t.1, t.2) := by
  intro s h hn
  obtain ⟨bs, s1, hr, h1, hle⟩ := hf s h hn
  obtain ⟨cs, s2, ht, h2, hle'⟩ := hg s1 h1 (by omega)
  exact ⟨k bs cs, s2, bind_ok.mpr ⟨_, hr, bind_ok.mpr ⟨_, ht, rfl⟩⟩, h2, hle.trans hle'⟩

theorem map (hf : Completes refs n f) (k : List Byte → List Byte) :
    Completes refs n fun s => do let r ← f s; return (k r.1, r.2) := by
  intro s h hn
  obtain ⟨bs, s1, hr, h1, hle⟩ := hf s h hn
  exact ⟨k bs, s1, bind_ok.mpr ⟨_, hr, rfl⟩, h1, hle⟩

end Completes

section Routines
variable {refs : List WaifRef} {n : ℕ}

theorem vals_complete {write : ℕ → Var → Saving → Result (List Byte × Saving)}
    (hw : ∀ i v, Within refs v → Completes refs n (write i v)) (map : WaifMap) (k i : ℕ)
    {vals : List Var} (hl : map.place (i+k) ≤ map.place i+vals.length)
    (hv : ∀ v ∈ vals, Within refs v) : Completes refs n (writeVals write map k i vals) := by
  induction k generalizing i vals with
  | zero => exact .pure []
  | succ k ih =>
    have hplace : map.place (i+1) = map.place i+if map.stored i then 1 else 0 := Nat.count_succ _ i
    have hle : map.place (i+1) ≤ map.place (i+(k+1)) := Nat.count_monotone _ (by omega)
    have hsum : i+1+k = i+(k+1) := by omega
    cases hs : map.stored i with
    | false =>
      rw [hs, if_neg Bool.false_ne_true, Nat.add_zero] at hplace
      have hroom : map.place (i+1+k) ≤ map.place (i+1)+vals.length := by rwa [hsum, hplace]
      have h := ih (i+1) hroom hv
      intro s
      unfold writeVals
      rw [hs, if_neg Bool.false_ne_true]
      exact h s
    | true =>
      rw [hs, if_pos rfl] at hplace
      cases vals with
      | nil => simp only [List.length_nil] at hl; omega
      | cons v vals =>
        rw [List.length_cons] at hl
        have hroom : map.place (i+1+k) ≤ map.place (i+1)+vals.length := by
          rw [hsum]
          omega
        have h := ih (i+1) hroom fun x hx => hv x (List.mem_cons_of_mem _ hx)
        have hval := hw i v (hv v List.mem_cons_self)
        intro s
        unfold writeVals
        rw [hs, if_pos rfl]
        dsimp only
        by_cases hc : i < nMappableProps ∨ v.type ≠ .clear
        · rw [if_pos hc]
          exact hval.seq h (fun a b => dbioWriteNum (BitVec.ofNat 64 i)++a++b) s
        · rw [if_neg hc]
          exact h s

theorem waif_completes {write : ℕ → Var → Saving → Result (List Byte × Saving)}
    (hw : ∀ i v, Within refs v → Completes refs n (write i v)) {w : WaifRef} (hr : w ∈ refs) :
    Completes refs (n+1) (writeWaif write w) := by
  intro s h hn
  by_cases hmem : w ∈ s.saved
  · exact ⟨_, s, if_pos hmem, h, le_rfl⟩
  · obtain ⟨world, waif, hup, hwaif, h1⟩ := h.enter hmem hr
    have hsome := waif_ok.mp hwaif
    have hfits := h1.ok.fits w waif hsome
    have hl : waif.map.place (0+waifLength world.db waif)
        ≤ waif.map.place 0+waif.propvals.length := by
      rw [waifLength, Nat.zero_add]
      cases hp : waif.propdefs with
      | none => simp [WaifMap.place]
      | some wpd =>
        rw [hfits.count wpd hp, waif.map.propvalCount_eq]
        exact le_add_left (Nat.count_monotone _ (le_max_left ..))
    obtain ⟨bs, s', hvals, h', hle⟩ := vals_complete hw waif.map _ 0 hl (h1.closed w waif hsome)
      ⟨world, s.saved++[w]⟩ h1 (by rw [List.length_append, List.length_singleton]; omega)
    rw [List.length_append] at hle
    exact ⟨_, s', (if_neg hmem).trans (bind_ok.mpr ⟨_, hup, bind_ok.mpr ⟨_, hwaif,
      bind_ok.mpr ⟨_, hvals, rfl⟩⟩⟩), h', by omega⟩

variable {o : Others} {waif : (List ℕ → BitVec 32) → WaifRef → Saving → Result (List Byte × Saving)}

mutual
theorem var_completes (hw : ∀ upper, ∀ w ∈ refs, Completes refs n (waif upper w)) :
    ∀ v upper, Within refs v → Completes refs n (writeVar o waif upper v)
  | .list vs, upper, hv => by
    have h := (vars_complete hw vs upper hv).map fun bs =>
      dbioWriteType .list++(dbioWriteNum (BitVec.ofNat 64 vs.length)++bs)
    intro s
    rw [writeVar]
    exact h s
  | .waif w, upper, hv => by
    have h := (hw upper w hv).map (dbioWriteType .waif++·)
    intro s
    rw [writeVar]
    exact h s
  | .int _, _, _ | .obj _, _, _ | .str _, _, _ | .err _, _, _ | .float _, _, _ | .clear, _, _
  | .none, _, _ | .catch _, _, _ | .finally _, _, _ => .pure _
theorem vars_complete (hw : ∀ upper, ∀ w ∈ refs, Completes refs n (waif upper w)) :
    ∀ vs upper, AllWithin refs vs → Completes refs n (writeVars o waif upper vs)
  | [], _, _ => .pure []
  | v::vs, upper, hv => by
    have h := (var_completes hw v (fun p => upper (vs.length::p)) hv.1).seq
      (vars_complete hw vs upper hv.2) (·++·)
    intro s
    rw [writeVars]
    exact h s
end

/-- With as much fuel as there are waifs left, a waif is written with all it refers to. -/
theorem saveWaif_completes (o : Others) (n : ℕ) (upper : List ℕ → BitVec 32) {w : WaifRef}
    (hr : w ∈ refs) : Completes refs n (saveWaif o n upper w) := by
  induction n generalizing upper w with
  | zero =>
    intro s h hn
    have := h.length_le
    omega
  | succ n ih =>
    exact waif_completes (fun i v => var_completes (fun upper w hw => ih upper hw) v _) hr

end Routines

/-- Values are written whenever the waifs that they reach are there. -/
theorem saveVars_completes (o : Others) (upper : List ℕ → BitVec 32) {vs : List Var} {s : Saving}
    (h : Whole s.world.refs s) (hvs : AllWithin s.world.refs vs) :
    ∃ bs s', saveVars o upper vs s = .ok (bs, s') ∧ Whole s.world.refs s' := by
  have hle := s.world.refs_length
  obtain ⟨bs, s', hsave, h', -⟩ := vars_complete
    (fun upper w hw => saveWaif_completes o (s.world.next+1) upper hw) vs upper hvs s h (by omega)
  exact ⟨bs, s', hsave, h'⟩

end LambdaMoo.WaifFile
