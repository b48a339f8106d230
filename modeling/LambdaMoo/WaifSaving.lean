import LambdaMoo.WaifFile

/-!
# Writing waifs

Writing a value leaves the waifs that are in the table as they are, and adds
some to it; the numbers of those that were there do not change. What a routine
reads is said together with the table before and after it.
-/

set_option autoImplicit false

namespace LambdaMoo.WaifFile
open LambdaMoo.DbIo LambdaMoo.Database LambdaMoo.Database.World

/-! ## What a save keeps -/

theorem Waif.Storable.update {db db' : Db} {w w' : Waif} (hw : Waif.Storable w)
    (hm : db.Made) (hf : w.Fits db) (h : updateWaif db w = .ok (db', w')) :
    Waif.Storable w' := by
  obtain ⟨-, -, hcls, howner⟩ := updateWaif_fits hm hf h
  constructor
  · rw [hcls]
    exact hw.cls
  · rw [howner]
    exact hw.owner
  · intro v hv
    rcases updateWaif_mem h v hv with hv|rfl
    · exact hw.vals v hv
    · simp [WaifFile.Storable]

structure Ready (s : Saving) : Prop where
  ok : s.world.Ok
  storable : ∀ r w, s.world.waifs r = some w → Waif.Storable w
  nodup : s.saved.Nodup

/-- The table grows, and its waifs and the lists of properties stay. -/
structure Carried (s s' : Saving) : Prop where
  saved : s.saved <+: s'.saved
  kept : ∀ w ∈ s.saved, s'.world.waifs w = s.world.waifs w
  next : s.world.db.nextWpd ≤ s'.world.db.nextWpd
  wpds : ∀ p, p < s.world.db.nextWpd → s'.world.db.wpds p = s.world.db.wpds p

theorem Carried.refl (s : Saving) : Carried s s :=
  ⟨List.prefix_refl _, fun _ _ => rfl, le_rfl, fun _ _ => rfl⟩

theorem Carried.trans {s s1 s2 : Saving} (h : Carried s s1) (h1 : Carried s1 s2) :
    Carried s s2 where
  saved := h.saved.trans h1.saved
  kept w hw := (h1.kept w (h.saved.subset hw)).trans (h.kept w hw)
  next := h.next.trans h1.next
  wpds p hp := (h1.wpds p (lt_of_lt_of_le hp h.next)).trans (h.wpds p hp)

theorem Carried.waifLength {s s' : Saving} (h : Carried s s') {w : Waif}
    (hw : w.Fits s.world.db) : waifLength s'.world.db w = waifLength s.world.db w := by
  unfold WaifFile.waifLength
  cases hp : w.propdefs with
  | none => rfl
  | some wpd => exact congrArg List.length (h.wpds wpd (hw.made wpd hp))

/-- A waif that enters the table is brought up to date; the others stay. -/
theorem Carried.enter {s : Saving} (h : s.world.Ok) {w : WaifRef} (hw : w ∉ s.saved) {world : World}
    (hu : s.world.updateWaifPropdefs w = .ok world) : Carried s ⟨world, s.saved++[w]⟩ := by
  obtain ⟨waif, db', waif', hwaif, hup, rfl⟩ := updateWaifPropdefs_ok.mp hu
  have hgrown := (updateWaif_fits h.made (h.fits w waif hwaif) hup).1
  refine ⟨List.prefix_append _ _, fun r hr => ?_, hgrown.next, hgrown.wpds⟩
  exact setWaif_ne { s.world with db := db' } (ne_of_mem_of_not_mem hr hw) waif'

/-- The state in which the values of a waif are written. -/
theorem Ready.enter {s : Saving} (h : Ready s) {w : WaifRef} (hw : w ∉ s.saved) {world : World}
    (hu : s.world.updateWaifPropdefs w = .ok world) :
    Ready ⟨world, s.saved++[w]⟩ ∧ Carried s ⟨world, s.saved++[w]⟩ := by
  refine ⟨⟨h.ok.update hu, ?_, ?_⟩, .enter h.ok hw hu⟩
  · obtain ⟨waif, db', waif', hwaif, hup, rfl⟩ := updateWaifPropdefs_ok.mp hu
    intro r x hx
    by_cases hr : r = w
    · subst hr
      have hself : ({ s.world with db := db' }.setWaif r waif').waifs r = some waif' :=
        setWaif_self hwaif waif'
      obtain rfl : waif' = x := Option.some.inj (hself.symm.trans hx)
      exact (h.storable r waif hwaif).update h.ok.made (h.ok.fits r waif hwaif) hup
    · apply h.storable r
      rw [← hx]
      exact (setWaif_ne { s.world with db := db' } hr waif').symm
  · exact List.Nodup.append h.nodup (List.nodup_singleton w) (by simpa using hw)

/-! ## Images -/

mutual
theorem image_extend {saved saved' : List WaifRef} (h : saved <+: saved') :
    ∀ v, Within saved v → Within saved' v ∧ image saved' v = image saved v
  | .list vs, hv => by
    obtain ⟨hw, hi⟩ := images_extend h vs hv
    exact ⟨hw, congrArg Var.list hi⟩
  | .waif w, hv => by
    obtain ⟨more, rfl⟩ := h
    rw [Within] at hv
    refine ⟨List.mem_append_left _ hv, ?_⟩
    rw [image, image, List.idxOf_append_of_mem hv]
  | .int _, _ | .obj _, _ | .str _, _ | .err _, _ | .float _, _ | .clear, _ | .none, _ | .catch _, _
  | .finally _, _ => ⟨trivial, rfl⟩
theorem images_extend {saved saved' : List WaifRef} (h : saved <+: saved') :
    ∀ vs, AllWithin saved vs → AllWithin saved' vs ∧ images saved' vs = images saved vs
  | [], _ => ⟨trivial, rfl⟩
  | v::vs, hv => by
    obtain ⟨hw, hi⟩ := image_extend h v hv.1
    obtain ⟨hws, his⟩ := images_extend h vs hv.2
    exact ⟨⟨hw, hws⟩, by rw [images, images, hi, his]⟩
end

/-! ## The waifs of the table, as they are read -/

/-- The new waifs of the table, and those that were read for them. -/
structure Fresh (s s' : Saving) (new : List (Option Waif)) : Prop where
  length : s.saved.length+new.length = s'.saved.length
  each : ∀ k w, s'.saved[s.saved.length+k]? = some w → ∃ waif l, s'.world.waifs w = some waif ∧
    new[k]? = some (some l) ∧
    Restored s'.saved (waifLength s'.world.db waif) waif l ∧
    ∀ i, i < waifLength s'.world.db waif → Within s'.saved (waif.value i)

theorem Restored.extend {saved saved' : List WaifRef} {n : ℕ} {w l : Waif}
    (h : Restored saved n w l) (hs : saved <+: saved')
    (hw : ∀ i, i < n → Within saved (w.value i)) : Restored saved' n w l where
  cls := h.cls
  owner := h.owner
  propdefs := h.propdefs
  count := h.count
  within := h.within
  stored := h.stored
  value i hi := (h.value i hi).trans (image_extend hs _ (hw i hi)).2.symm

theorem Fresh.nil (s : Saving) : Fresh s s [] := by
  constructor
  · rfl
  · intro k w hk
    simp at hk

theorem Fresh.append {s s1 s2 : Saving} {new more : List (Option Waif)} (h : Fresh s s1 new)
    (hr : Ready s1) (hc : Carried s1 s2) (h1 : Fresh s1 s2 more) : Fresh s s2 (new++more) := by
  have hlen := h.length
  constructor
  · rw [List.length_append, ← Nat.add_assoc, h.length, h1.length]
  · intro k w hk
    by_cases hlt : k < new.length
    · have hold : s1.saved[s.saved.length+k]? = some w := by
        rw [← hk]
        obtain ⟨tail, ht⟩ := hc.saved
        rw [← ht, List.getElem?_append_left (by omega)]
      obtain ⟨waif, l, hwaif, hl, hres, hin⟩ := h.each k w hold
      have hmem : w ∈ s1.saved := List.mem_of_getElem? hold
      have hn := hc.waifLength (hr.ok.fits w waif hwaif)
      refine ⟨waif, l, (hc.kept w hmem).trans hwaif, ?_, ?_, ?_⟩
      · rw [List.getElem?_append_left hlt]
        exact hl
      · rw [hn]
        exact hres.extend hc.saved hin
      · rw [hn]
        exact fun i hi => (image_extend hc.saved _ (hin i hi)).1
    · have hk' : s2.saved[s1.saved.length+(k-new.length)]? = some w := by
        rw [← hk]
        congr 1
        omega
      obtain ⟨waif, l, hwaif, hl, hrest⟩ := h1.each _ w hk'
      refine ⟨waif, l, hwaif, ?_, hrest⟩
      rw [List.getElem?_append_right (by omega)]
      exact hl

/-! ## Reading -/

/-- A routine reads a text to its end, from one table to another. -/
def Restores {α : Type} (read : Loading → Result (α × Loading)) (bs : List Byte)
    (t t' : List (Option Waif)) (a : α) : Prop :=
  ∀ (f : Input) (rest : List Byte), f.rest = bs++rest →
    ∃ b, read ⟨f, t⟩ = .ok (a, ⟨f.past bs rest b, t'⟩)

theorem Restores.bind {α β : Type} {read : Loading → Result (α × Loading)} {bs cs : List Byte}
    {t t1 t2 : List (Option Waif)} {a : α} {k : α × Loading → Result (β × Loading)} {b : β}
    (h : Restores read bs t t1 a) (hn : Restores (fun s => k (a, s)) cs t1 t2 b) :
    Restores (fun s => read s >>= k) (bs++cs) t t2 b := by
  intro f rest hf
  obtain ⟨u, hu⟩ := h f (cs++rest) (by simpa using hf)
  obtain ⟨w, hw⟩ := hn (f.past bs (cs++rest) u) rest rfl
  refine ⟨w, bind_ok.mpr ⟨_, hu, ?_⟩⟩
  rw [past_past] at hw
  exact hw

theorem restores_pure {α : Type} (t : List (Option Waif)) (a : α) :
    Restores (fun s => pure (a, s)) [] t t a := by
  intro f rest hf
  refine ⟨f.buffer, ?_⟩
  have hr : f.rest = rest := by simpa using hf
  simp [Input.past, ← hr, pure, Except.pure]

theorem readFrom_restores {α : Type} {read : Input → Result (α × Input)} {bs : List Byte} {a : α}
    (h : Reads read bs a) (t : List (Option Waif)) : Restores (readFrom read) bs t t a := by
  intro f rest hf
  obtain ⟨b, hb⟩ := h f rest hf
  exact ⟨b, bind_ok.mpr ⟨_, hb, rfl⟩⟩

theorem Restores.last {α β : Type} {read : Loading → Result (α × Loading)} {bs : List Byte}
    {t t' : List (Option Waif)} {a : α} (h : Restores read bs t t' a) (g : α → β) :
    Restores (fun s => do let r ← read s; return (g r.1, r.2)) bs t t' (g a) := by
  have hb := h.bind (k := fun r => pure (g r.1, r.2)) (restores_pure t' (g a))
  rwa [List.append_nil] at hb

end LambdaMoo.WaifFile
