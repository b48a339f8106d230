import LambdaMoo.WaifAccess
import LambdaMoo.WaifCoherence
import LambdaMoo.WaifRefresh

/-!
# Waifs while the database changes

Reads and writes of waif properties between operations on the database, in any
order. A waif can always be brought up to date, its list is then the one that
the ancestors of its class define, and no read or write panics.
-/

set_option autoImplicit false

namespace LambdaMoo.Database

section Transfer
variable {map : WaifMap}

/-- There are values enough for the properties from `i` to `j`. -/
def Enough (map : WaifMap) (i j : ℕ) (ov : List Var) : Prop := map.place j ≤ map.place i+ov.length

theorem nextVal_enough {i j : ℕ} (hij : i < j) {ov : List Var} (h : Enough map i j ov) :
    ∃ v ov', nextVal map i ov = .ok (v, ov') ∧ Enough map (i+1) j ov' := by
  have hmono : map.place (i+1) ≤ map.place j := Nat.count_monotone _ hij
  have hsucc : map.place (i+1) = map.place i+if map.stored i = true then 1 else 0 :=
    Nat.count_succ ..
  rw [Enough] at h
  unfold nextVal
  by_cases hs : map.stored i = true
  · rw [if_pos hs] at hsucc ⊢
    cases ov with
    | nil =>
      rw [List.length_nil] at h
      omega
    | cons v ov =>
      rw [List.length_cons] at h
      refine ⟨v, ov, rfl, ?_⟩
      rw [Enough]
      omega
  · rw [if_neg hs] at hsucc ⊢
    refine ⟨.clear, ov, rfl, ?_⟩
    rw [Enough]
    omega

theorem freeVals_enough (n : ℕ) {i j : ℕ} (hij : i+n ≤ j) {ov : List Var} (h : Enough map i j ov) :
    ∃ ov', freeVals map n i ov = .ok ov' ∧ Enough map (i+n) j ov' := by
  induction n generalizing i ov with
  | zero => exact ⟨ov, rfl, h⟩
  | succ n ih =>
    obtain ⟨v, ov1, hv, h1⟩ := nextVal_enough (by omega) h
    obtain ⟨ov', hf, h'⟩ := ih (by omega) h1
    refine ⟨ov', ?_, ?_⟩
    · rw [freeVals, hv]
      exact hf
    · rwa [Nat.add_assoc, Nat.add_comm 1] at h'

theorem transfer_enough (bs : List Propdef) {i j : ℕ} {a : List Propdef} (hj : i+a.length ≤ j)
    {ov : List Var} (h : Enough map i j ov) : ∃ xfer, transfer map bs i a ov = .ok xfer := by
  induction bs generalizing i a ov with
  | nil =>
    obtain ⟨ov', hf, -⟩ := freeVals_enough a.length hj h
    exact ⟨[], bind_ok.mpr ⟨ov', hf, rfl⟩⟩
  | cons b bs ih =>
    rw [transfer]
    cases hk : a.findIdx? (·.name = b.name) with
    | none =>
      obtain ⟨rest, hr⟩ := ih hj h
      exact ⟨_, bind_ok.mpr ⟨rest, hr, rfl⟩⟩
    | some k =>
      have hlt : k < a.length := (List.findIdx?_eq_some_iff_getElem.mp hk).1
      obtain ⟨ov1, hf, h1⟩ := freeVals_enough k (by omega) h
      obtain ⟨v, ov2, hv, h2⟩ := nextVal_enough (by omega) h1
      obtain ⟨rest, hr⟩ := ih (a := a.drop (k+1)) (by
        rw [List.length_drop]
        omega) h2
      exact ⟨_, bind_ok.mpr ⟨ov1, hf, bind_ok.mpr ⟨(v, ov2), hv, bind_ok.mpr ⟨rest, hr, rfl⟩⟩⟩⟩

end Transfer

/-- A waif can be given the values for any list. -/
theorem remap_ok {db : Db} {w : Waif} (hw : ∀ wpd, w.propdefs = some wpd →
    w.propvals.length = propvalCount (db.wpds wpd).length w.map)
    (hnull : w.propdefs = none → w.propvals = []) (wpd : ℕ) : ∃ w', remap db w wpd = .ok w' := by
  rw [remap]
  split
  · exact ⟨_, rfl⟩
  · next hne =>
    cases hp : w.propdefs with
    | none =>
      rw [hnull hp] at hne
      exact absurd rfl hne
    | some old =>
      have hc := hw old hp
      rw [w.map.propvalCount_eq] at hc
      have hen : Enough w.map 0 (max (db.wpds old).length nMappableProps) w.propvals := by
        rw [Enough, hc]
        exact Nat.le_add_left ..
      have hlen : 0+(db.wpds old).length ≤ max (db.wpds old).length nMappableProps := by omega
      obtain ⟨xfer, hx⟩ := transfer_enough (db.wpds wpd) hlen hen
      exact ⟨_, bind_ok.mpr ⟨old, rfl, bind_ok.mpr ⟨xfer, hx, bind_ok.mpr ⟨_, packVals_eq xfer, rfl⟩⟩⟩⟩

namespace World

theorem updateWaif_ok {db : Db} (h : db.Sound) {w : Waif} (hw : w.Fits db) :
    ∃ db' w', updateWaif db w = .ok (db', w') := by
  rw [updateWaif, db.find_eq]
  cases ho : db.objects w.cls with
  | none => exact ⟨_, _, rfl⟩
  | some o =>
    dsimp only
    split
    · exact ⟨_, _, rfl⟩
    · obtain ⟨⟨wpd, db'⟩, hc, ht, -⟩ := Db.classPropdefs_tends h ho
      have hf := ht.fits hw
      obtain ⟨w', hr⟩ := remap_ok hf.count hf.null wpd
      exact ⟨db', w', bind_ok.mpr ⟨_, hc, bind_ok.mpr ⟨w', hr, rfl⟩⟩⟩

/-- No built-in property has a name with the prefix. -/
theorem builtIn_prefixed (name : CStr) : builtIn (prefixed name) = none := by
  rw [builtIn, List.find?_eq_none]
  intro b _
  have hb : (0 : Byte) ∉ b.pname := by cases b <;> decide
  have hcolon : (fold b.pname).head? ≠ some 58 := by cases b <;> decide
  have hne : fold (prefixed name).str ≠ fold b.pname :=
    fun he => hcolon (congrArg List.head? he).symm
  rw [Bool.and_eq_true, beq_iff_eq, beq_iff_eq, mystrcasecmp_eq_zero (prefixed name).noNul hb]
  exact fun he => hne he.2

section Reading
variable {db : Db} (h : db.Sound)
include h

/-- What the class's list has, a search through the ancestors finds. -/
theorem classSlot_ok {cls : ℤ} {o : Object} (ho : db.objects cls = some o)
    {chain : List (ℤ × Object)} (hl : db.Lineage cls chain) {name : CStr} {i : ℕ}
    (hi : (waifDefs chain).findIdx? (·.named (prefixed name)) = some i) (msg : String) :
    ∃ n pval, classSlot db cls (prefixed name) msg = .ok (n, pval) ∧ n < (db.uids cls).length := by
  obtain ⟨found, hf, hnone⟩ := Db.findProperty_eq h.kin cls (prefixed name)
  cases found with
  | none =>
    obtain ⟨hlt, hn, -⟩ := List.findIdx?_eq_some_iff_getElem.mp hi
    obtain ⟨⟨a, ha, hp⟩, -⟩ := mem_waifDefs.mp (List.getElem_mem hlt)
    obtain ⟨hoa, hs, hb⟩ := (hl.mem h.kin).mp ha
    exact absurd ((Propdef.named_iff _ _).mp hn) (hnone rfl a.1 a.2 hoa hs hb _ hp)
  | some handle =>
    cases handle with
    | builtIn b =>
      rw [Db.findProperty, builtIn_prefixed, hl.ancestors h.kin] at hf
      simp only [bind, Except.bind] at hf
      split at hf
      · cases hf
      · cases hf
    | slot definer n =>
      have hn := (Db.findProperty_slot h hf).1
      have hlt : n < o.propval.length := by
        rw [← Db.uids_length ho]
        exact hn
      refine ⟨n, o.propval[n], bind_ok.mpr ⟨_, hf, bind_ok.mpr ⟨_, ?_, rfl⟩⟩, hn⟩
      rw [handleSlot, Db.object_ok ho]
      simp only [bind, Except.bind, List.getElem?_eq_getElem hlt]
      rfl

theorem orClassValue_ok {cls : ℤ} {chain : List (ℤ × Object)} (hl : db.Lineage cls chain) {n : ℕ}
    (hn : n < (db.uids cls).length) (val : Var) : ∃ v, orClassValue db cls n val = .ok v := by
  rw [orClassValue]
  split
  · obtain ⟨v, hv, -⟩ := Db.slotValue_ok h hl hn
    exact ⟨v, bind_ok.mpr ⟨chain, hl.ancestors h.kin, hv⟩⟩
  · exact ⟨val, rfl⟩

/-- Reading from a waif with the list of its class ends well. -/
theorem readProp_ok {w : Waif} (hw : w.Fits db)
    (hlist : ∀ wpd, w.propdefs = some wpd → ∀ chain, db.Lineage w.cls chain →
      db.wpds wpd = waifDefs chain)
    (hsome : db.valid w.cls = true → w.propdefs ≠ none) (name : CStr) (progr : ℤ) :
    ∃ res, readProp db w name progr = .ok res := by
  rw [readProp]
  split
  · exact ⟨_, rfl⟩
  split
  · exact ⟨_, rfl⟩
  split
  · exact ⟨_, rfl⟩
  split
  · exact ⟨_, rfl⟩
  next hv =>
  have hv : db.valid w.cls = true := by simpa using hv
  obtain ⟨o, ho⟩ := Db.valid_some hv
  obtain ⟨wpd, hpd⟩ := Option.ne_none_iff_exists'.mp (hsome hv)
  obtain ⟨chain, -, hl⟩ := Db.ancestors_eq h.kin w.cls
  simp only [hpd, Db.deref, bind, Except.bind]
  cases hf : findPropvalOffset (db.wpds wpd) w.map (prefixed name) with
  | none => exact ⟨_, rfl⟩
  | some found =>
    obtain ⟨hi, hplace⟩ := findPropvalOffset_some hf
    rw [findPropvalOffset, Option.map_eq_some_iff] at hf
    obtain ⟨k, hk, he⟩ := hf
    obtain rfl : k = found.1 := congrArg Prod.fst he
    rw [hlist wpd hpd chain hl] at hk
    obtain ⟨n, pval, hc, hn⟩ := classSlot_ok h ho hl hk
      "waif propdef update failed in waif_get_prop"
    obtain ⟨v, hv⟩ := orClassValue_ok h hl hn (w.value found.1)
    have hval := valueAt_eq (hw.count wpd hpd) hi
    rw [← hplace] at hval
    simp only [hval, hc, hv]
    split <;> exact ⟨_, rfl⟩

end Reading

mutual
theorem refersToIn_safe {below : WaifRef → Result Bool} (hb : ∀ r, Safe (below r) fun _ => True)
    (key : WaifRef) : ∀ v, Safe (refersToIn below key v) fun _ => True
  | .list l => refersToAny_safe hb key l
  | .waif w => by
    rw [refersToIn]
    exact .ite (fun _ => trivial) fun _ => hb w
  | .float _ | .int _ | .obj _ | .str _ | .err _ | .clear | .none | .catch _ | .finally _ => trivial
theorem refersToAny_safe {below : WaifRef → Result Bool} (hb : ∀ r, Safe (below r) fun _ => True)
    (key : WaifRef) : ∀ vs, Safe (refersToAny below key vs) fun _ => True
  | [] => trivial
  | v::vs => by
    rw [refersToAny]
    refine (refersToIn_safe hb key v).bind fun b _ => ?_
    exact .ite (fun _ => trivial) fun _ => refersToAny_safe hb key vs
end

theorem refersBelow_safe (s : World) (key : WaifRef) (fuel : ℕ) (r : WaifRef) :
    Safe (s.refersBelow key fuel r) fun _ => True := by
  induction fuel generalizing r with
  | zero => trivial
  | succ fuel ih =>
    rw [refersBelow]
    refine Safe.bind (P := fun _ => True) ?_ fun vs _ => refersToAny_safe ih key vs
    rw [propvalsOf]
    refine Safe.bind (P := fun _ => True) ?_ fun w _ => .ite (fun _ => trivial) fun _ => trivial
    rw [waif, Db.deref.eq_def]
    cases s.waifs r <;> trivial

/-- Writing to a waif with the list of its class does not panic. -/
theorem writeProp_safe {s : World} (h : s.db.Sound) {r : WaifRef} {w : Waif} (hw : w.Fits s.db)
    (hlist : ∀ wpd, w.propdefs = some wpd → ∀ chain, s.db.Lineage w.cls chain →
      s.db.wpds wpd = waifDefs chain) (name : CStr) (val : Var) (progr : ℤ) :
    Safe (s.writeProp r w name val progr) fun _ => True := by
  rw [writeProp]
  refine .ite (fun _ => trivial) fun _ => .ite (fun _ => trivial) fun _ =>
    .ite (fun _ => trivial) fun hv => ?_
  have hv : s.db.valid w.cls = true := by simpa using hv
  obtain ⟨o, ho⟩ := Db.valid_some hv
  cases hpd : w.propdefs with
  | none => trivial
  | some wpd =>
    refine Safe.bindEq (a := wpd) rfl ?_
    obtain ⟨chain, -, hl⟩ := Db.ancestors_eq h.kin w.cls
    cases hf : findPropvalOffset (s.db.wpds wpd) w.map (prefixed name) with
    | none => simp only [hf]; trivial
    | some found =>
      obtain ⟨hi, hplace⟩ := findPropvalOffset_some hf
      have hk := hf
      rw [findPropvalOffset, Option.map_eq_some_iff] at hk
      obtain ⟨k, hk, he⟩ := hk
      obtain rfl : k = found.1 := congrArg Prod.fst he
      rw [hlist wpd hpd chain hl] at hk
      obtain ⟨n, pval, hc, -⟩ := classSlot_ok h ho hl hk
        "waif propdef update failed in waif_put_prop"
      obtain ⟨w', hst, -⟩ := storeVal_spec (hw.count wpd hpd) hi val
      rw [← hplace] at hst
      simp only [hf]
      refine .bindEq hc (.ite (fun _ => trivial) fun _ => ?_)
      refine Safe.bind (refersToIn_safe (fun r' => s.refersBelow_safe r s.next r') r val) fun b _ => ?_
      exact .ite (fun _ => trivial) fun _ => .bindEq hst trivial

/-- One operation on the database, or one waif made, read or written. -/
inductive Step : World → World → Prop
  | db {s : World} {db' : Db} : Db.Step s.db db' → Step s { s with db := db' }
  | access {s s' : World} : Access s s' → Step s s'

/-- The database is in order, the lists of its classes are, and the values of every waif fit. -/
structure Orderly (s : World) : Prop where
  sound : s.db.Sound
  lists : s.db.Coherent
  ok : s.Ok

theorem updateWaifPropdefs_tends {s s' : World} (h : s.Orderly) {r : WaifRef}
    (hu : s.updateWaifPropdefs r = .ok s') : s.db.Tends s'.db := by
  obtain ⟨w, db', w', -, hu', rfl⟩ := updateWaifPropdefs_ok.mp hu
  rcases updateWaif_cases hu' with ⟨-, rfl, -⟩|⟨o, -, -, rfl, -⟩|⟨o, wpd, ho, -, hc, -⟩
  · exact .refl h.sound
  · exact .refl h.sound
  · obtain ⟨r, hr, ht, -⟩ := Db.classPropdefs_tends h.sound ho
    obtain rfl := Except.ok.inj (hr.symm.trans hc)
    exact ht

theorem Access.tends {s s' : World} (hs : Access s s') (h : s.Orderly) : s.db.Tends s'.db := by
  cases hs with
  | @new cls _ _ hn =>
    rw [newWaif, s.db.find_eq] at hn
    cases ho : s.db.objects cls with
    | none =>
      rw [ho] at hn
      cases hn
    | some o =>
      rw [ho] at hn
      obtain ⟨⟨wpd, db⟩, hc, hn⟩ := bind_ok.mp hn
      obtain ⟨-, rfl⟩ : _ ∧ _ = s' := by simpa using pure_ok.mp hn
      obtain ⟨r, hr, ht, -⟩ := Db.classPropdefs_tends h.sound ho
      obtain rfl := Except.ok.inj (hr.symm.trans hc)
      exact ht
  | get hg =>
    obtain ⟨su, hu, hg⟩ := bind_ok.mp hg
    obtain ⟨w, -, hg⟩ := bind_ok.mp hg
    obtain ⟨res, -, hg⟩ := bind_ok.mp hg
    obtain ⟨-, rfl⟩ : _ ∧ su = s' := by simpa using pure_ok.mp hg
    exact updateWaifPropdefs_tends h hu
  | put hp =>
    obtain ⟨su, hu, hp⟩ := bind_ok.mp hp
    obtain ⟨w, -, hp⟩ := bind_ok.mp hp
    have ht := updateWaifPropdefs_tends h hu
    rcases writeProp_cases hp with ⟨-, rfl⟩|⟨_, _, _, _, w', -, -, -, -, -, -, -, -, -, rfl⟩
    · exact ht
    · exact ht

theorem Step.orderly {s s' : World} (hs : Step s s') (h : s.Orderly) : s'.Orderly := by
  cases hs with
  | db hd =>
    have ht := hd.tends h.sound h.lists
    exact ⟨ht.sound, ht.coherent h.lists, (ht.coherent h.lists).made,
      fun r w hw => ht.fits (h.ok.fits r w hw)⟩
  | access ha =>
    have ht := ha.tends h
    exact ⟨ht.sound, ht.coherent h.lists, ha.ok h.ok⟩

/-- Any number of operations in any order. -/
abbrev Run : World → World → Prop := Relation.ReflTransGen Step

theorem Run.orderly {s s' : World} (hr : Run s s') (h : s.Orderly) : s'.Orderly := by
  induction hr with
  | refl => exact h
  | tail _ hs ih => exact hs.orderly ih

/-- A waif that there is can be brought up to date; it is without a list only where its class is
gone, or where it had none and the class has none. -/
theorem updateWaifPropdefs_list {s : World} (h : s.Orderly) {r : WaifRef} {w : Waif}
    (hw : s.waifs r = some w) : ∃ su wu, s.updateWaifPropdefs r = .ok su ∧ su.Orderly ∧
      su.waifs r = some wu ∧ wu.cls = w.cls ∧ su.db.valid w.cls = s.db.valid w.cls ∧
      (∀ wpd, wu.propdefs = some wpd → ∀ chain, su.db.Lineage w.cls chain →
        su.db.wpds wpd = waifDefs chain) ∧
      (wu.propdefs = none ↔ s.db.objects w.cls = none ∨ w.propdefs = none ∧
        ∃ o, s.db.objects w.cls = some o ∧ o.waifPropdefs = none) := by
  have hf := h.ok.fits r w hw
  obtain ⟨db', w', hu⟩ := updateWaif_ok h.sound hf
  have hup := updateWaifPropdefs_ok.mpr ⟨w, db', w', hw, hu, rfl⟩
  have ht := updateWaifPropdefs_tends h hup
  obtain ⟨-, -, hlist⟩ := Db.updateWaif_list h.sound h.lists hf hu
  obtain ⟨hg, -, hcls, -⟩ := updateWaif_fits h.lists.made hf hu
  refine ⟨_, w', hup, ⟨ht.sound, ht.coherent h.lists, h.ok.update hup⟩, setWaif_self hw w', hcls, ?_,
    hlist, ?_⟩
  · change db'.valid w.cls = _
    rw [Db.valid, Db.valid, Db.find_eq, Db.find_eq]
    rcases hg.objects w.cls with he|⟨o, p, ho, ho', -⟩
    · rw [he]
    · rw [ho, ho']
      rfl
  · rcases updateWaif_cases hu with ⟨ho, -, rfl⟩|⟨o, ho, hp, -, rfl⟩|⟨o, wpd, ho, hp, -, hr⟩
    · simp [ho]
    · simp [ho, hp]
    · obtain ⟨-, -, hpd, -⟩ := remap_fields hr
      simp only [hpd, ho, reduceCtorEq, false_or, false_iff, not_and, Option.some.injEq]
      rintro hn ⟨o', rfl, hn'⟩
      exact hp (hn.trans hn'.symm)

theorem updateWaifPropdefs_missing {s : World} {r : WaifRef} (hw : s.waifs r = none) :
    s.updateWaifPropdefs r = .error (.undefined "null pointer") := by
  rw [updateWaifPropdefs, waif, hw]
  rfl

/-- A waif without a list makes C follow a null pointer; it does not panic. -/
theorem readProp_null {db : Db} {w : Waif} (hpd : w.propdefs = none) (name : CStr) (progr : ℤ) :
    Safe (readProp db w name progr) fun _ => True := by
  rw [readProp, hpd]
  refine .ite (fun _ => trivial) fun _ => .ite (fun _ => trivial) fun _ =>
    .ite (fun _ => trivial) fun _ => .ite (fun _ => trivial) fun _ => ?_
  exact Safe.undefined "null pointer"

theorem waifGetProp_safe {s : World} (h : s.Orderly) (r : WaifRef) (name : CStr) (progr : ℤ) :
    Safe (s.waifGetProp r name progr) fun _ => True := by
  cases hw : s.waifs r with
  | none =>
    rw [waifGetProp, updateWaifPropdefs_missing hw]
    trivial
  | some w =>
    obtain ⟨su, wu, hu, ho, hwu, hcls, -, hlist, -⟩ := updateWaifPropdefs_list h hw
    refine .bindEq hu (.bindEq (waif_ok.mpr hwu) ?_)
    cases hpd : wu.propdefs with
    | none => exact (readProp_null hpd name progr).bind fun _ _ => trivial
    | some wpd =>
      rw [← hcls] at hlist
      obtain ⟨res, hr⟩ := readProp_ok ho.sound (ho.ok.fits r wu hwu) hlist (by simp [hpd]) name progr
      exact .bindEq hr trivial

theorem waifPutProp_safe {s : World} (h : s.Orderly) (r : WaifRef) (name : CStr) (val : Var)
    (progr : ℤ) : Safe (s.waifPutProp r name val progr) fun _ => True := by
  cases hw : s.waifs r with
  | none =>
    rw [waifPutProp, updateWaifPropdefs_missing hw]
    trivial
  | some w =>
    obtain ⟨su, wu, hu, ho, hwu, hcls, -, hlist, -⟩ := updateWaifPropdefs_list h hw
    rw [← hcls] at hlist
    refine .bindEq hu (.bindEq (waif_ok.mpr hwu) ?_)
    exact writeProp_safe ho.sound (ho.ok.fits r wu hwu) hlist name val progr

/-- After any run of operations on the database and of waifs made, read and written between them: the
lists that classes point to are those that their ancestors define, and not shared; no new name of a
property, no read and no write panics; every waif can be brought up to date, its list is then the one
that the ancestors of its class define, and if it has one, every read of it comes to an end. -/
theorem waif_properties_of_run {s0 s : World} (h : s0.Orderly) (hrun : Run s0 s) :
    s.db.Coherent ∧
    (∀ oid old new, s.db.valid oid = true → ∃ r, s.db.renamePropdef oid old new = .ok r) ∧
    (∀ r name progr msg, s.waifGetProp r name progr ≠ .error (.panic msg)) ∧
    (∀ r name val progr msg, s.waifPutProp r name val progr ≠ .error (.panic msg)) ∧
    ∀ r w, s.waifs r = some w → ∃ su wu, s.updateWaifPropdefs r = .ok su ∧
      su.waifs r = some wu ∧ wu.cls = w.cls ∧ wu.Fits su.db ∧
      (∀ wpd, wu.propdefs = some wpd → ∀ chain, su.db.Lineage w.cls chain →
        su.db.wpds wpd = waifDefs chain) ∧
      (wu.propdefs = none ↔ s.db.objects w.cls = none ∨ w.propdefs = none ∧
        ∃ o, s.db.objects w.cls = some o ∧ o.waifPropdefs = none) ∧
      ((s.db.valid w.cls = true → wu.propdefs ≠ none) →
        ∀ name progr, ∃ res, s.waifGetProp r name progr = .ok (res, su)) := by
  have hs := hrun.orderly h
  refine ⟨hs.lists, fun oid old new hv => ?_, fun r name progr msg =>
    (waifGetProp_safe hs r name progr).no_panic msg, fun r name val progr msg =>
    (waifPutProp_safe hs r name val progr).no_panic msg, fun r w hw => ?_⟩
  · obtain ⟨o, ho⟩ := Db.valid_some hv
    obtain ⟨r, hr, -⟩ := Db.renamePropdef_tends hs.sound ho hs.lists old new
    exact ⟨r, hr⟩
  · obtain ⟨su, wu, hu, ho, hwu, hcls, hvalid, hlist, hnull⟩ := updateWaifPropdefs_list hs hw
    have hf := ho.ok.fits r wu hwu
    refine ⟨su, wu, hu, hwu, hcls, hf, hlist, hnull, fun hsome name progr => ?_⟩
    rw [← hcls] at hlist
    rw [← hvalid, ← hcls] at hsome
    obtain ⟨res, hr⟩ := readProp_ok ho.sound hf hlist hsome name progr
    exact ⟨res, bind_ok.mpr ⟨su, hu, bind_ok.mpr ⟨wu, waif_ok.mpr hwu,
      bind_ok.mpr ⟨res, hr, rfl⟩⟩⟩⟩

theorem noWaifs_bounded (r : WaifRef) (hr : ((none : Option Waif)).isSome = true) : r.ptr < 0 := by
  cases hr

/-- No object, no waif. -/
def empty : World := ⟨Db.empty, fun _ => none, 0, noWaifs_bounded⟩

theorem empty_orderly : empty.Orderly where
  sound := Db.empty_sound
  lists := Db.empty_coherent
  ok := ⟨Db.empty_coherent.made, fun _ _ hw => by cases hw⟩

theorem waif_properties_of_run_one : ∃ s w, Run empty s ∧ s.waifs ⟨0⟩ = some w ∧
    ∃ su, ∀ name progr, ∃ res, s.waifGetProp ⟨0⟩ name progr = .ok (res, su) := by
  have h0 := Db.createObject_sound Db.empty_sound
  have hself : Db.empty.createObject.objects 0 = _ := Db.createObject_self
  have hval : zero.type ≠ .clear := by decide
  obtain ⟨⟨b, db1⟩, hr, -⟩ := Db.addPropdef_tends h0 hself ⟨0, ⟨[58, 97], noNul_a⟩⟩ hval 0
    ⟨true, false, false⟩
  let s1 : World := { empty with db := db1 }
  have hrun1 : Run empty s1 := .tail (.single (.db (.createObject Db.empty)))
    (.db (.addPropdef rfl hval hr))
  have hframed := (Db.addPropdef_safe h0.kin (.refl _) 0 _ _ _ _).result hr
  have hsome : (db1.objects 0).isSome = true := by
    rw [← Db.kin_isSome, hframed.kin_eq, Db.kin_isSome, hself]
    rfl
  obtain ⟨o1, ho1⟩ := Option.isSome_iff_exists.mp hsome
  obtain ⟨⟨wpd, db2⟩, hcl, -⟩ := Db.classPropdefs_tends (hrun1.orderly empty_orderly).sound ho1
  -- a waif of the class that defines the property
  let w : Waif := ⟨0, 0, some wpd, List.replicate (propvalCount (db2.wpds wpd).length .empty)
    Var.clear, .empty⟩
  let s2 : World := { s1 with db := db2 }.addWaif w
  have hnew : s1.newWaif 0 0 = .ok (⟨0⟩, s2) := by
    have hcls : s1.db.objects 0 = some o1 := ho1
    rw [newWaif, Db.find_eq, hcls]
    exact bind_ok.mpr ⟨_, hcl, rfl⟩
  have hrun : Run empty s2 := hrun1.tail (.access (.new hnew))
  obtain ⟨-, o2, ho2, -⟩ := Db.classPropdefs_grown ho1 hcl
  obtain ⟨-, -, -, -, hwaif⟩ := waif_properties_of_run empty_orderly hrun
  obtain ⟨su, wu, -, -, -, -, -, hnull, hread⟩ := hwaif ⟨0⟩ w rfl
  refine ⟨s2, w, hrun, rfl, su, hread fun _ hn => ?_⟩
  rcases hnull.mp hn with ho|⟨hw, -⟩
  · have ho : db2.objects 0 = none := ho
    rw [ho2] at ho
    cases ho
  · cases hw

end World
end LambdaMoo.Database
