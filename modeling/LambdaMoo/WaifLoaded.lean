import LambdaMoo.WaifFile
import LambdaMoo.WaifWorlds

/-!
# Waifs after loading

Waifs are read without a list of properties. When all objects are there, each
gets the list of its class, and the world is in order for all that comes.
-/

set_option autoImplicit false

namespace LambdaMoo.WaifFile
open LambdaMoo.Database LambdaMoo.Database.World

/-- The waif with the list of its class, or without where the class is gone. -/
structure Backfilled (db : Db) (w w' : Waif) : Prop where
  same : w' = { w with propdefs := w'.propdefs }
  fits : w'.Fits db
  list : (db.objects w.cls = none ∧ w'.propdefs = none) ∨
    ∃ o p, db.objects w.cls = some o ∧ o.waifPropdefs = some p ∧ w'.propdefs = some p

/-- The objects that are gone stay so, and those with a list stay as they are. -/
structure Steadier (db db' : Db) : Prop where
  gone : ∀ i, db.objects i = none → db'.objects i = none
  lists : ∀ i o p, db.objects i = some o → o.waifPropdefs = some p → db'.objects i = some o

theorem classPropdefs_steadier {db db' : Db} {cls : ℤ} {o : Object} {p : ℕ}
    (ho : db.objects cls = some o) (h : db.classPropdefs cls o = .ok (p, db')) :
    Steadier db db' := by
  rw [Db.classPropdefs] at h
  cases hw : o.waifPropdefs with
  | some q =>
    rw [hw] at h
    obtain ⟨-, rfl⟩ : q = p ∧ db = db' := by simpa using h
    exact ⟨fun _ h => h, fun _ _ _ h _ => h⟩
  | none =>
    rw [hw] at h
    obtain ⟨db1, hg, h⟩ := bind_ok.mp h
    obtain ⟨-, rfl⟩ : _ ∧ db1 = db' := by simpa using pure_ok.mp h
    obtain ⟨chain, -, hg⟩ := bind_ok.mp hg
    obtain rfl := pure_ok.mp hg
    constructor
    · intro i hi
      have hne : i ≠ cls := fun he => by simp [he, ho] at hi
      exact (Db.modify_ne db hne _).trans hi
    · intro i oi q hi hq
      have hne : i ≠ cls := by
        rintro rfl
        rw [ho, Option.some.injEq] at hi
        rw [← hi, hw] at hq
        cases hq
      exact (Db.modify_ne db hne _).trans hi

theorem Backfilled.kept {db db' : Db} {w w' : Waif} (h : Backfilled db w w') (ht : db.Tends db')
    (hs : Steadier db db') : Backfilled db' w w' where
  same := h.same
  fits := ht.fits h.fits
  list := by
    rcases h.list with ⟨ho, hp⟩|⟨o, p, ho, hlist, hp⟩
    · exact .inl ⟨hs.gone _ ho, hp⟩
    · exact .inr ⟨o, p, hs.lists _ o p ho hlist, hlist, hp⟩

theorem waifDefs_like {db db' : Db} (h : db.Like db') {i : ℤ}
    {chain chain' : List (ℤ × Object)} (hl : db.Lineage i chain) (hl' : db'.Lineage i chain') :
    waifDefs chain' = waifDefs chain := by
  obtain ⟨xs, hx, he⟩ := h.lineage hl
  obtain rfl := hx.unique hl'
  apply waifDefs_congr
  have := congrArg (List.map Prod.snd) he
  rw [List.map_map, List.map_map] at this
  exact this

end LambdaMoo.WaifFile
