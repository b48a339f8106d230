import LambdaMoo.WaifLoaded
import LambdaMoo.WaifRestore

/-!
# A world of waifs saved and loaded

A save leaves every waif that it writes with the list of its class, and nothing
later in the save undoes that. The values that are there for a waif are
therefore those for the properties of its class when all is loaded again.
-/

set_option autoImplicit false

namespace LambdaMoo.WaifFile
open LambdaMoo.DbIo LambdaMoo.Database LambdaMoo.Database.World

/-- The waif has the list of its class, or nothing where the class is gone. -/
def Current (db : Db) (w : Waif) : Prop :=
  (db.objects w.cls = none ∧ w.propdefs = none ∧ w.propvals = []) ∨
    ∃ o p, db.objects w.cls = some o ∧ o.waifPropdefs = some p ∧ w.propdefs = some p

theorem updateWaif_steadier {db db' : Db} {w w' : Waif} (h : updateWaif db w = .ok (db', w')) :
    Steadier db db' := by
  rcases updateWaif_cases h with ⟨-, rfl, -⟩|⟨o, -, -, rfl, -⟩|⟨o, p, ho, -, hc, -⟩
  · exact ⟨fun _ h => h, fun _ _ _ h _ => h⟩
  · exact ⟨fun _ h => h, fun _ _ _ h _ => h⟩
  · exact classPropdefs_steadier ho hc

namespace Current
variable {db db' : Db} {w w' : Waif}

theorem steadier (h : Current db w) (hs : Steadier db db') : Current db' w := by
  rcases h with ⟨ho, hp, hv⟩|⟨o, p, ho, hlist, hp⟩
  · exact .inl ⟨hs.gone _ ho, hp, hv⟩
  · exact .inr ⟨o, p, hs.lists _ o p ho hlist, hlist, hp⟩

theorem of_update (hl : ∀ o, db.objects w.cls = some o → w.propdefs ≠ none)
    (h : updateWaif db w = .ok (db', w')) : Current db' w' := by
  rcases updateWaif_cases h with ⟨ho, rfl, rfl⟩|⟨o, ho, hp, rfl, rfl⟩|⟨o, p, ho, -, hc, hr⟩
  · exact .inl ⟨ho, rfl, rfl⟩
  · obtain ⟨q, hq⟩ := Option.ne_none_iff_exists'.mp (hl o ho)
    exact .inr ⟨o, q, ho, hp ▸ hq, hq⟩
  · obtain ⟨-, o', ho', hp'⟩ := Db.classPropdefs_grown ho hc
    obtain ⟨hcls, -, hpd, -⟩ := remap_fields hr
    exact .inr ⟨o', p, hcls ▸ ho', hp', hpd⟩

end Current

/-- Every waif of an object has a list, and those in the table have the one of their class. -/
structure Steady (s : Saving) : Prop where
  orderly : s.world.Orderly
  listed : ∀ r w o, s.world.waifs r = some w → s.world.db.objects w.cls = some o → w.propdefs ≠ none
  current : ∀ r ∈ s.saved, ∃ w, s.world.waifs r = some w ∧ Current s.world.db w

theorem Steady.enter {s : Saving} (h : Steady s) {w : WaifRef} (hw : w ∉ s.saved) {world : World}
    (hu : s.world.updateWaifPropdefs w = .ok world) : Steady ⟨world, s.saved++[w]⟩ := by
  have ht := updateWaifPropdefs_tends h.orderly hu
  have hok := h.orderly.ok.update hu
  have hc := Carried.enter h.orderly.ok hw hu
  obtain ⟨waif, db', waif', hwaif, hup, rfl⟩ := updateWaifPropdefs_ok.mp hu
  have hs := updateWaif_steadier hup
  have hcur := Current.of_update (h.listed w waif · hwaif) hup
  have hself : ({ s.world with db := db' }.setWaif w waif').waifs w = some waif' :=
    setWaif_self hwaif waif'
  refine ⟨⟨ht.sound, ht.coherent h.orderly.lists, hok⟩, fun r x o hx ho => ?_, fun r hr => ?_⟩
  · by_cases hrw : r = w
    · subst hrw
      obtain rfl := Option.some.inj (hself.symm.trans hx)
      rcases hcur with ⟨hn, -⟩|⟨-, p, -, -, hp⟩
      · cases hn.symm.trans ho
      · simp [hp]
    · have hold := (setWaif_ne { s.world with db := db' } hrw waif').symm.trans hx
      cases hx0 : s.world.db.objects x.cls with
      | none => cases (hs.gone _ hx0).symm.trans ho
      | some o0 => exact h.listed r x o0 hold hx0
  · rcases List.mem_append.mp hr with hr|hr
    · obtain ⟨x, hx, hxc⟩ := h.current r hr
      exact ⟨x, (hc.kept r hr).trans hx, hxc.steadier hs⟩
    · obtain rfl := List.mem_singleton.mp hr
      exact ⟨waif', hself, hcur⟩

/-- A routine that keeps the waifs of the table up to date. -/
def Keeps (write : Saving → Result (List Byte × Saving)) : Prop :=
  ∀ s bs s', Steady s → write s = .ok (bs, s') → Steady s'

namespace Keeps
variable {f g : Saving → Result (List Byte × Saving)}

theorem pure (bs : List Byte) : Keeps fun s => .ok (bs, s) := by
  intro s bs' s' hs h
  obtain ⟨-, rfl⟩ : bs = bs' ∧ s = s' := by simpa using h
  exact hs

theorem seq (hf : Keeps f) (hg : Keeps g) (k : List Byte → List Byte → List Byte) :
    Keeps fun s => do let r ← f s; let t ← g r.2; return (k r.1 t.1, t.2) := by
  intro s bs s' hs h
  obtain ⟨r, hr, h⟩ := bind_ok.mp h
  obtain ⟨t, ht, h⟩ := bind_ok.mp h
  obtain ⟨-, rfl⟩ : k r.1 t.1 = bs ∧ t.2 = s' := by simpa using pure_ok.mp h
  exact hg r.2 t.1 t.2 (hf s r.1 r.2 hs hr) ht

theorem map (hf : Keeps f) (k : List Byte → List Byte) :
    Keeps fun s => do let r ← f s; return (k r.1, r.2) := by
  intro s bs s' hs h
  obtain ⟨r, hr, h⟩ := bind_ok.mp h
  obtain ⟨-, rfl⟩ : k r.1 = bs ∧ r.2 = s' := by simpa using pure_ok.mp h
  exact hf s r.1 r.2 hs hr

end Keeps

section Values
variable {o : Others} {waif : (List ℕ → BitVec 32) → WaifRef → Saving → Result (List Byte × Saving)}

mutual
theorem var_keeps (hw : ∀ upper w, Keeps (waif upper w)) :
    ∀ v upper, Keeps (writeVar o waif upper v)
  | .list vs, upper => by
    have h := (vars_keep hw vs upper).map fun bs =>
      dbioWriteType .list++(dbioWriteNum (BitVec.ofNat 64 vs.length)++bs)
    intro s bs s' hs hsave
    rw [writeVar] at hsave
    exact h s bs s' hs hsave
  | .waif w, upper => by
    have h := (hw upper w).map (dbioWriteType .waif++·)
    intro s bs s' hs hsave
    rw [writeVar] at hsave
    exact h s bs s' hs hsave
  | .int _, _ | .obj _, _ | .str _, _ | .err _, _ | .float _, _ | .clear, _ | .none, _ | .catch _, _
  | .finally _, _ => .pure _
theorem vars_keep (hw : ∀ upper w, Keeps (waif upper w)) :
    ∀ vs upper, Keeps (writeVars o waif upper vs)
  | [], _ => .pure []
  | v::vs, upper => by
    have h := (var_keeps hw v fun p => upper (vs.length::p)).seq (vars_keep hw vs upper) (·++·)
    intro s bs s' hs hsave
    rw [writeVars] at hsave
    exact h s bs s' hs hsave
end

end Values

end LambdaMoo.WaifFile
