import LambdaMoo.SaveCompletes
import LambdaMoo.WaifVals

/-!
# Waifs that are saved are read back

Each waif is written in full once, and is read into the place of the table
that has the number it was written under. So whatever the values share of
them, and whatever they refer to, is shared and referred to after loading.
-/

set_option autoImplicit false

namespace LambdaMoo.WaifFile
open LambdaMoo.DbIo LambdaMoo.Database LambdaMoo.Database.World LambdaMoo.Decimal

/-! ## The waif that is put together -/

section Fields
variable {saved : List WaifRef} {w : Waif} {len : ℕ} {map : WaifMap}

theorem pack_range (p : ℕ → Prop) [DecidablePred p] (g : ℕ → Var) (n : ℕ) :
    Packed.pack p ((List.range n).map g) = ((List.range n).filter (fun k => decide (p k))).map g := by
  induction n with
  | zero => rfl
  | succ n ih =>
    rw [List.range_succ, List.map_append, List.map_singleton, Packed.pack_concat, ih,
      List.filter_append, List.map_append, List.length_map, List.length_range]
    by_cases h : p n <;> simp [h]

theorem value_unstored {i : ℕ} (h : ¬ w.map.stored i = true) : w.value i = .clear := by
  rw [Waif.value, Packed.entry, if_neg h]
  rfl

variable (hmap : ∀ x, map.propMapped x
  = (decide (x < min len nMappableProps) && w.map.propMapped x))
include hmap

theorem stored_read {i : ℕ} (hi : i < len) : map.stored i = w.map.stored i := by
  by_cases h : i < nMappableProps
  · rw [map.stored_of_lt h, w.map.stored_of_lt h, hmap,
      decide_eq_true (show i < min len nMappableProps by omega), Bool.true_and]
  · rw [map.stored_of_ge (by omega), w.map.stored_of_ge (by omega)]

theorem mapped_read {i : ℕ} (h : map.propMapped i = true) : i < len := by
  rw [hmap, Bool.and_eq_true, decide_eq_true_iff] at h
  omega

/-- The values as the two loops leave them. -/
theorem vals_read (g : ℕ → Var) :
    ((List.range' 0 (min len nMappableProps)).filter (w.map.stored ·)).map g
      ++(List.range' nMappableProps (len-nMappableProps)).map g
      = Packed.pack (fun k => map.stored k = true) ((List.range len).map g) := by
  have hsplit : List.range len = List.range' 0 (min len nMappableProps)
      ++List.range' nMappableProps (len-nMappableProps) := by
    rw [List.range_eq_range']
    rcases Nat.le_total len nMappableProps with h|h
    · have h0 : len-nMappableProps = 0 := by omega
      rw [h0, Nat.min_eq_left h]
      simp
    · have hs : len = nMappableProps+(len-nMappableProps) := by omega
      rw [Nat.min_eq_right h]
      conv => lhs; rw [hs]
      rw [← List.range'_append_1, Nat.zero_add]
  have hfst : (List.range' 0 (min len nMappableProps)).filter (fun k => decide (map.stored k = true))
      = (List.range' 0 (min len nMappableProps)).filter (w.map.stored ·) := by
    apply List.filter_congr
    intro k hk
    have hlt : k < len := by
      have := (List.mem_range'_1.mp hk).2
      omega
    rw [stored_read hmap hlt, Bool.decide_eq_true]
  have hsnd : (List.range' nMappableProps (len-nMappableProps)).filter
      (fun k => decide (map.stored k = true))
      = List.range' nMappableProps (len-nMappableProps) := by
    apply List.filter_eq_self.mpr
    intro k hk
    rw [map.stored_of_ge (List.mem_range'_1.mp hk).1]
    rfl
  rw [pack_range, hsplit, List.filter_append, List.map_append, hfst, hsnd]

theorem restored {l : Waif} (hc : l.cls = w.cls) (ho : l.owner = w.owner) (hp : l.propdefs = none)
    (hl : l.map = map) (hv : l.propvals = Packed.pack (fun k => map.stored k = true)
      ((List.range len).map fun k => image saved (w.value k))) : Restored saved len w l where
  cls := hc
  owner := ho
  propdefs := hp
  within i hi := mapped_read hmap (hl ▸ hi)
  stored i hi := by
    rw [hl]
    exact stored_read hmap hi
  count := by
    rw [hv, hl, Packed.length_pack, List.length_map, List.length_range,
      place_packed fun i hi => mapped_read hmap hi]
    rfl
  value i hi := by
    rw [Waif.value, hl, hv, Packed.entry_pack]
    by_cases hs : map.stored i = true
    · rw [if_pos hs, List.getElem?_map, List.getElem?_range hi]
      rfl
    · rw [if_neg hs, value_unstored (stored_read hmap hi ▸ hs)]
      rfl

end Fields

/-! ## One waif -/

theorem store_u {n : ℕ} (h : n < 2^31) : Conversion.u.store n = some (n:ℤ) := by
  rw [Conversion.store, if_pos (by omega), Int.emod_eq_of_lt (by omega) (by omega)]

theorem readIndex_eq (ref : Byte) {n : ℕ} {f : Input} {rest : List Byte} (h : n < 2^31)
    (hs : Solid rest) (hf : f.rest = ref::(printf (format " %u\n") [(n:ℤ)]++rest)) :
    readIndex f
      = .ok ((ref, n), f.past (ref::printf (format " %u\n") [(n:ℤ)]) rest f.buffer) := by
  have ha : Aligned (format " %u\n") [(n:ℤ)] rest := by
    refine ⟨fun _ => ?_, store_u h, stops_cons (by decide), fun _ => hs, rfl⟩
    change Solid (print (n:ℤ)++[10]++rest)
    rw [List.append_assoc]
    exact solid_print _ _
  have hr : (f.advance 1).rest = printf (format " %u\n") [(n:ℤ)]++rest := by
    rw [Input.advance, hf]
    rfl
  have hscan := scanf_printf _ _ rest ha (f.advance 1) hr
  have hne : f.rest ≠ [] := by
    rw [hf]
    exact List.cons_ne_nil _ _
  rw [readIndex, if_neg hne]
  simp only [hscan, bind, Except.bind, List.length_singleton, if_true, List.headD_cons, hf]
  simp [pure, Except.pure, Input.past, Input.advance, Nat.add_assoc, Nat.add_comm 1]

theorem solid_terminator (rest : List Byte) : Solid (terminator++rest) := solid_cons (by decide)

theorem terminator_reads : Reads dbioReadString terminator [46] :=
  dbioReadString_reads [46] (by decide) (by decide)

theorem num_toInt {z : ℤ} (h : -2^63 ≤ z ∧ z < 2^63) : (BitVec.ofInt 64 z).toInt = z := by
  rw [BitVec.toInt_ofInt, Int.bmod_eq_of_le (by omega) (by omega)]

theorem map_ext {map map' : WaifMap} (h : ∀ x, map.propMapped x = map'.propMapped x) :
    map = map' := by
  have hat : ∀ j, map.at' j = map'.at' j := by
    intro j
    have hlow : ∀ k, k < 32 → (map.at' j).getLsbD k = (map'.at' j).getLsbD k := by
      intro k hk
      rw [← map.propMapped_word j hk, ← map'.propMapped_word j hk, h]
    apply BitVec.eq_of_getLsbD_eq
    intro k hk
    by_cases hk' : k < 32
    · exact hlow k hk'
    · rw [map.at_high j (by omega) hk, map'.at_high j (by omega) hk, hlow 31 (by decide)]
  have hword : map.word = map'.word := by
    funext j
    have := hat j.val
    rw [WaifMap.at', WaifMap.at', dif_pos j.isLt, dif_pos j.isLt] at this
    exact this
  cases map
  cases map'
  simpa using hword

/-- The waif that is written first comes before those its values refer to. -/
theorem Fresh.enter {s s1 s' : Saving} {w : WaifRef} {waif l : Waif} {new : List (Option Waif)}
    (hs : s1.saved = s.saved++[w]) (hc : Carried s1 s') (h : Fresh s1 s' new)
    (hk : s'.world.waifs w = some waif)
    (hres : Restored s'.saved (waifLength s'.world.db waif) waif l)
    (hin : ∀ i, i < waifLength s'.world.db waif → Within s'.saved (waif.value i)) :
    Fresh s s' (some l::new) := by
  have hlen : s1.saved.length = s.saved.length+1 := by rw [hs, List.length_append]; rfl
  constructor
  · rw [List.length_cons, ← h.length, hlen]
    omega
  · intro k r hkr
    cases k with
    | zero =>
      obtain ⟨tail, ht⟩ := hc.saved
      rw [← ht, hs, List.append_assoc] at hkr
      obtain rfl : w = r := by simpa using hkr
      exact ⟨waif, l, hk, rfl, hres, hin⟩
    | succ k =>
      apply h.each k r
      rw [← hkr, hlen]
      congr 1
      omega

section FieldsRead
variable {rd : Loading → Result (Var × Loading)} {index len : ℕ} {cls owner : ℤ}
  {vals others : List Var} {map : WaifMap} {bs : List Byte} {t new : List (Option Waif)}

theorem values_restores (hi : t.length = index) (hvals : ∀ k, bs.length < k → ∃ out : List Var,
      out++List.replicate (len-nMappableProps-out.length) .clear = others ∧
      Restores (readPropvals rd (len-nMappableProps) k k [] .empty) (bs++dbioWriteNum (-1))
        (t++[none]) (t++[none]++new) (vals, map, out)) :
    Restores (readValues rd index (len-nMappableProps) cls owner)
      (bs++(dbioWriteNum (-1)++terminator)) (t++[none])
      (t++some ⟨cls, owner, none, vals++others, map⟩::new) (.waif ⟨index⟩) := by
  intro f rest hf
  obtain ⟨out, hout, hres⟩ := hvals (f.rest.length+1) (by
    rw [hf]
    simp only [List.length_append]
    omega)
  obtain ⟨u, hu⟩ := hres f (terminator++rest) (by
    rw [hf]
    simp only [List.append_assoc])
  obtain ⟨b, hb⟩ := terminator_reads (f.past (bs++dbioWriteNum (-1)) (terminator++rest) u) rest rfl
  rw [past_past, List.append_assoc] at hb
  have hset : (t++[none]++new).set index (some ⟨cls, owner, none, vals++others, map⟩)
      = t++some ⟨cls, owner, none, vals++others, map⟩::new := by
    rw [List.append_assoc, List.set_append_right _ _ (le_of_eq hi), hi, Nat.sub_self]
    rfl
  refine ⟨b, ?_⟩
  rw [readValues]
  simp only [hu, bind, Except.bind, readFrom, hb, pure, Except.pure, hout, hset]

theorem fields_restores (hi : t.length = index) (hlen : len < 2^31) (hcls : -2^63 ≤ cls ∧ cls < 2^63)
    (howner : -2^63 ≤ owner ∧ owner < 2^63) (hvals : ∀ k, bs.length < k → ∃ out : List Var,
      out++List.replicate (len-nMappableProps-out.length) .clear = others ∧
      Restores (readPropvals rd (len-nMappableProps) k k [] .empty) (bs++dbioWriteNum (-1))
        (t++[none]) (t++[none]++new) (vals, map, out)) :
    Restores (readFields rd index) (dbioWriteNum (BitVec.ofInt 64 cls)
      ++(dbioWriteNum (BitVec.ofInt 64 owner)++(dbioWriteNum (BitVec.ofNat 64 len)
      ++(bs++(dbioWriteNum (-1)++terminator))))) t
      (t++some ⟨cls, owner, none, vals++others, map⟩::new) (.waif ⟨index⟩) := by
  have hroom : ((len:ℤ)-nMappableProps).toNat = len-nMappableProps := by omega
  have hend : Restores (readValues rd index (len-nMappableProps) cls owner)
      (bs++(dbioWriteNum (-1)++terminator)) (t++[none])
      (t++some ⟨cls, owner, none, vals++others, map⟩::new) (.waif ⟨index⟩) :=
    values_restores hi hvals
  have h3 := (readFrom_restores (dbioReadInt_reads len hlen) (t++[none])).bind
    (k := fun (r : ℤ×Loading) => readValues rd index (r.1-nMappableProps).toNat cls owner r.2) (by
      simp only [hroom]
      exact hend)
  have h2 := (readFrom_restores (dbioReadNum_reads (BitVec.ofInt 64 owner)) (t++[none])).bind
    (k := fun (x : Num×Loading) => do
      let r ← readFrom dbioReadInt x.2
      readValues rd index (r.1-nMappableProps).toNat cls x.1.toInt r.2) (by
      simp only [num_toInt howner]
      exact h3)
  have h1 := (readFrom_restores (dbioReadNum_reads (BitVec.ofInt 64 cls)) (t++[none])).bind
    (k := fun (y : Num×Loading) => do
      let x ← readFrom dbioReadNum y.2
      let r ← readFrom dbioReadInt x.2
      readValues rd index (r.1-nMappableProps).toNat y.1.toInt x.1.toInt r.2) (by
      simp only [num_toInt hcls]
      exact h2)
  intro f rest hf
  exact h1 f rest hf

end FieldsRead

section Prefixes
variable {rd : Loading → Result (Var × Loading)} {t t' : List (Option Waif)}

/-- The number of a waif that is in the table. -/
theorem reference_restores {n : ℕ} (hn : n < t.length) (ht : t.length < 2^31) :
    Restores (readWaif rd) (printf (format "r %d\n") [(n:ℤ)]++terminator) t t (.waif ⟨n⟩) := by
  intro f rest hf
  have hix := readIndex_eq 114 (n := n) (f := f) (lt_trans hn ht) (solid_terminator rest) (by
    rw [hf, List.append_assoc]
    rfl)
  obtain ⟨b, hb⟩ := terminator_reads (f.past (114::printf (format " %u\n")
    [(n:ℤ)]) (terminator++rest) f.buffer) rest rfl
  refine ⟨b, ?_⟩
  rw [past_past] at hb
  rw [readWaif, readFrom, hix]
  simp only [bind, Except.bind, pure, Except.pure, if_true, readFrom, hb, Int.toNat_natCast,
    Nat.cast_lt, hn]
  rfl

/-- The number of a new entry, before its fields. -/
theorem entry_restores {n : Num} {cs : List Byte} {v : Var} (ht : t.length < 2^31)
    (h : Restores (readFields rd t.length) (dbioWriteNum n++cs) t t' v) :
    Restores (readWaif rd) (printf (format "c %d\n") [(t.length:ℤ)]++(dbioWriteNum n++cs)) t t' v := by
  intro f rest hf
  obtain ⟨b, hb⟩ := h (f.past (99::printf (format " %u\n") [(t.length:ℤ)])
    (dbioWriteNum n++cs++rest) f.buffer) rest rfl
  have hsolid : Solid (dbioWriteNum n++cs++rest) := by
    rw [List.append_assoc, dbioWriteNum, List.append_assoc]
    exact solid_print _ _
  have hix := readIndex_eq 99 ht hsolid (f := f) (by
    rw [hf]
    simp only [List.append_assoc]
    rfl)
  refine ⟨b, ?_⟩
  rw [past_past] at hb
  rw [readWaif, readFrom, hix]
  simp only [bind, Except.bind, pure, Except.pure, ne_eq, not_true_eq_false, if_false, hb]
  rfl

end Prefixes

section Waifs
variable {write : ℕ → Var → Saving → Result (List Byte × Saving)}
  {read : ℕ → Loading → Result (Var × Loading)}
  (hw : ∀ i v, Storable v → Carries (write i v) (Within · v) read (image · v))
include hw

theorem waif_carries (w : WaifRef) : Carries (writeWaif write w) (w ∈ ·)
    (fun m => readWaif (read m)) (fun saved => .waif ⟨saved.idxOf w⟩) := by
  intro s bs s' hr h
  rw [writeWaif] at h
  by_cases hmem : w ∈ s.saved
  · rw [if_pos hmem] at h
    obtain ⟨rfl, rfl⟩ : printf (format "r %d\n") [(s.saved.idxOf w:ℤ)]++terminator = bs ∧ s = s' := by
      simpa using h
    refine ⟨hr, .refl s, hmem, fun hs t ht => ⟨[], .nil s, fun m _ => ?_⟩⟩
    have hlt : s.saved.idxOf w < t.length := ht ▸ List.idxOf_lt_length_of_mem hmem
    rw [List.append_nil]
    exact reference_restores hlt (ht ▸ hs.saved)
  · rw [if_neg hmem] at h
    obtain ⟨world, hup, h⟩ := bind_ok.mp h
    obtain ⟨waif, hwaif, h⟩ := bind_ok.mp h
    obtain ⟨r, hvals, h⟩ := bind_ok.mp h
    have hwaif' : world.waifs w = some waif := waif_ok.mp hwaif
    obtain ⟨hr1, hcar1⟩ := hr.enter hmem hup
    have hfit := hr1.ok.fits w waif hwaif'
    obtain ⟨len, hlen⟩ : ∃ len, len = waifLength world.db waif := ⟨_, rfl⟩
    rw [← hlen] at hvals h
    obtain ⟨rfl, rfl⟩ : printf (format "c %d\n") [(s.saved.length:ℤ)]
      ++(dbioWriteNum (BitVec.ofInt 64 waif.cls)++(dbioWriteNum (BitVec.ofInt 64 waif.owner)
      ++(dbioWriteNum (BitVec.ofNat 64 len)++(r.1++(dbioWriteNum (-1)++terminator))))) = bs ∧
        r.2 = s' := by simpa using pure_ok.mp h
    have hsto := hr1.storable w waif hwaif'
    have hcount : 0 < len → waif.propvals.length = propvalCount (0+len) waif.map := by
      intro hpos
      rw [hlen, waifLength] at hpos ⊢
      cases hp : waif.propdefs with
      | none => simp [hp] at hpos
      | some wpd => simpa [hp] using hfit.count wpd hp
    have hdrop : waif.propvals.drop (waif.map.place 0) = waif.propvals := by simp [WaifMap.place]
    rw [← hdrop] at hvals
    obtain ⟨hr', hcar, hin, hread⟩ := vals_restores hw (Nat.zero_le _) hcount hsto.vals hr1 hvals
    have hmem' : w ∈ r.2.saved := hcar.saved.subset (by simp)
    have hnum : r.2.saved.idxOf w = s.saved.length := by
      obtain ⟨tail, ht⟩ := hcar.saved
      rw [← ht, List.idxOf_append_of_mem (by simp), List.idxOf_append_of_notMem hmem]
      simp
    have hlen' : waifLength r.2.world.db waif = len := (hcar.waifLength hfit).trans hlen.symm
    have hkept : r.2.world.waifs w = some waif := (hcar.kept w (by simp)).trans hwaif'
    refine ⟨hr', hcar1.trans hcar, hmem', fun hs t ht => ?_⟩
    have hlt : len < 2^31 := by
      rw [← hlen', waifLength]
      cases hp : waif.propdefs with
      | none => simp
      | some wpd => exact hs.wpds wpd (lt_of_lt_of_le (hfit.made wpd hp) hcar.next)
    obtain ⟨new, hnew, hread⟩ := hread (by omega) hs (t++[none]) (by simp [ht])
    obtain ⟨map, -, hmap, -⟩ := hread r.1.length r.1.length (r.1.length+1) le_rfl le_rfl
      (Nat.lt_succ_self _) [] .empty (Nat.zero_le _)
    have hmapped : ∀ x, map.propMapped x
        = (decide (x < min len nMappableProps) && waif.map.propMapped x) := by
      intro x
      rw [hmap, propMapped_empty, Bool.false_or, Nat.zero_add]
      simp
    obtain ⟨vals, hvals'⟩ : ∃ vals, vals = ((List.range' 0 (min (0+len) nMappableProps-0)).filter
      (waif.map.stored ·)).map (fun x => image r.2.saved (waif.value x)) := ⟨_, rfl⟩
    obtain ⟨others, hothers⟩ : ∃ others, others = (List.range' nMappableProps
      (0+len-nMappableProps)).map (fun x => image r.2.saved (waif.value x)) := ⟨_, rfl⟩
    have hres : Restored r.2.saved len waif ⟨waif.cls, waif.owner, none, vals++others, map⟩ := by
      refine restored (l := ⟨waif.cls, waif.owner, none, vals++others, map⟩) hmapped rfl rfl rfl rfl ?_
      rw [← vals_read hmapped]
      simp only [hvals', hothers, Nat.zero_add, Nat.sub_zero]
    refine ⟨some ⟨waif.cls, waif.owner, none, vals++others, map⟩::new, ?_, fun m hm => ?_⟩
    · apply Fresh.enter rfl hcar hnew hkept
      · rw [hlen']
        exact hres
      · rw [hlen']
        exact fun i hi => hin i (Nat.zero_le _) (by omega)
    · have hfields : Restores (readFields (read m) t.length)
          (dbioWriteNum (BitVec.ofInt 64 waif.cls)++(dbioWriteNum (BitVec.ofInt 64 waif.owner)
            ++(dbioWriteNum (BitVec.ofNat 64 len)++(r.1++(dbioWriteNum (-1)++terminator))))) t
          (t++some ⟨waif.cls, waif.owner, none, vals++others, map⟩::new) (.waif ⟨t.length⟩) := by
        apply fields_restores rfl hlt hsto.cls hsto.owner
        intro k hk
        obtain ⟨map', out, hmap', hout, hfill, hres'⟩ := hread m k k (by
          simp only [List.length_append] at hm
          omega) (by omega) (by omega) [] .empty (Nat.zero_le _)
        obtain rfl : map' = map := map_ext fun x => by rw [hmap', hmap]
        rw [← hothers] at hfill
        rw [List.nil_append, ← hvals'] at hres'
        rw [Nat.zero_add] at hfill hres'
        exact ⟨out, hfill, hres'⟩
      have hprefix := lt_of_le_of_lt (hcar1.trans hcar).saved.length_le hs.saved
      rw [← ht] at hprefix
      simp only [hnum, ← ht]
      exact entry_restores hprefix hfields

end Waifs

/-! ## Values -/

section Values
variable {o : Others} {waif : (List ℕ → BitVec 32) → WaifRef → Saving →
  Result (List Byte × Saving)}

/-- A value of another type than `TYPE_LIST` and `TYPE_WAIF`. -/
theorem plain_carries {v : Var} (ty : VarType) {bs : List Byte} {upper : List ℕ → BitVec 32}
    (hty : dbType ty ≠ 4 ∧ dbType ty ≠ 10)
    (hv : ∀ s, writeVar o waif upper v s = .ok (dbioWriteType ty++bs, s))
    (hin : ∀ saved, Within saved v ∧ image saved v = v)
    (hr : Reads (dbioReadRest o (fun _ => .error .outOfFuel) (dbType ty)) bs v) :
    Carries (writeVar o waif upper v) (Within · v) (fun m => readVar o (m+1)) (image · v) := by
  intro s cs s' hs h
  rw [hv] at h
  obtain ⟨rfl, rfl⟩ : dbioWriteType ty++bs = cs ∧ s = s' := by simpa using h
  refine ⟨hs, .refl s, (hin _).1, fun _ t _ => ⟨[], .nil s, fun m _ f rest hf => ?_⟩⟩
  obtain ⟨u, hu⟩ := readFrom_restores (readType_reads ty) t f (bs++rest) (by
    rw [hf, List.append_assoc])
  obtain ⟨b, hb⟩ := readFrom_restores hr t (f.past (dbioWriteType ty) (bs++rest) u) rest rfl
  rw [past_past] at hb
  refine ⟨b, ?_⟩
  change readVar o (m+1) ⟨f, t⟩ = _
  have h4 : ¬ ((dbType ty:ℤ) = 4) := by
    have := hty.1
    omega
  have h10 : ¬ ((dbType ty:ℤ) = 10) := by
    have := hty.2
    omega
  rw [readVar, hu]
  simp only [bind, Except.bind, oldType_dbType, h4, h10, if_false, hb, (hin _).2, List.append_nil]

theorem vars_carries (rd : ℕ → Loading → Result (Var × Loading)) {vs : List Var}
    (h : ∀ v ∈ vs, ∀ upper,
      Carries (writeVar o waif upper v) (Within · v) rd (image · v)) (upper : List ℕ → BitVec 32) :
    Carries (writeVars o waif upper vs) (AllWithin · vs) (fun m => readAll (rd m) vs.length)
      (images · vs) := by
  induction vs with
  | nil =>
    intro s bs s' hs hw
    obtain ⟨rfl, rfl⟩ : [] = bs ∧ s = s' := by simpa [writeVars] using hw
    refine ⟨hs, .refl s, trivial, fun _ t _ => ⟨[], .nil s, fun m _ => ?_⟩⟩
    rw [List.append_nil]
    exact restores_pure t []
  | cons v vs ih =>
    intro s bs s' hs hw
    rw [writeVars] at hw
    obtain ⟨r, hr, hw⟩ := bind_ok.mp hw
    obtain ⟨u, hu, hw⟩ := bind_ok.mp hw
    obtain ⟨rfl, rfl⟩ : r.1++u.1 = bs ∧ u.2 = s' := by simpa using pure_ok.mp hw
    obtain ⟨hs1, hcar1, hin1, hread1⟩ := h v (by simp) _ s r.1 r.2 hs hr
    obtain ⟨hs', hcar, hin, hread⟩ := ih (fun x hx => h x (List.mem_cons_of_mem _ hx)) r.2 u.1 u.2
      hs1 hu
    have hv := image_extend hcar.saved v hin1
    refine ⟨hs', hcar1.trans hcar, ⟨hv.1, hin⟩, fun hsh t ht => ?_⟩
    obtain ⟨new1, hnew1, hread1⟩ := hread1 (hsh.carried hcar) t ht
    obtain ⟨new, hnew, hread⟩ := hread hsh (t++new1) (by rw [List.length_append, ht, hnew1.length])
    refine ⟨new1++new, hnew1.append hs1 hcar hnew, fun m hm => ?_⟩
    rw [List.length_append] at hm
    have hfst : Restores (rd m) r.1 t (t++new1) (image u.2.saved v) := by
      rw [hv.2]
      exact hread1 m (by omega)
    have hsnd := (hread m (by omega)).last (fun us => image u.2.saved v::us)
    have hb := hfst.bind (k := fun (x : Var×Loading) => do
      let us ← readAll (rd m) vs.length x.2
      return (x.1::us.1, us.2)) hsnd
    rw [List.append_assoc] at hb
    exact hb

mutual
/-- A list is read with less fuel than the value it is, for its type is a byte or more. -/
theorem var_carries (hfl : ∀ d, Reads o.readFloat (o.writeFloat d) d)
    (hwaif : ∀ upper w, Carries (waif upper w) (w ∈ ·) (fun m => readWaif (readVar o (m+1)))
      (fun saved => .waif ⟨saved.idxOf w⟩)) :
    ∀ v, Storable v → ∀ upper, Carries (writeVar o waif upper v) (Within · v)
      (fun m => readVar o (m+1)) (image · v)
  | .clear, _, upper => plain_carries .clear (by decide)
      (fun s => by rw [List.append_nil]; rfl) (fun _ => ⟨trivial, rfl⟩) (reads_nil Var.clear)
  | .none, _, upper => plain_carries .none (by decide)
      (fun s => by rw [List.append_nil]; rfl) (fun _ => ⟨trivial, rfl⟩) (reads_nil Var.none)
  | .str x, hv, upper => plain_carries .str (by decide) (fun _ => rfl)
      (fun _ => ⟨trivial, rfl⟩) ((dbioReadString_reads x hv.1 hv.2).map Var.str)
  | .obj i, _, upper => plain_carries .obj (by decide) (fun _ => rfl)
      (fun _ => ⟨trivial, rfl⟩) ((dbioReadNum_reads i).map Var.obj)
  | .err e, _, upper => plain_carries .err (by decide) (fun _ => rfl)
      (fun _ => ⟨trivial, rfl⟩) (readErr_reads _ e)
  | .int i, _, upper => plain_carries .int (by decide) (fun _ => rfl)
      (fun _ => ⟨trivial, rfl⟩) ((dbioReadNum_reads i).map Var.int)
  | .catch i, _, upper => plain_carries .catch (by decide) (fun _ => rfl)
      (fun _ => ⟨trivial, rfl⟩) ((dbioReadNum_reads i).map Var.catch)
  | .finally i, _, upper => plain_carries .finally (by decide) (fun _ => rfl)
      (fun _ => ⟨trivial, rfl⟩) ((dbioReadNum_reads i).map Var.finally)
  | .float d, _, upper => plain_carries .float (by decide) (fun _ => rfl)
      (fun _ => ⟨trivial, rfl⟩) ((hfl d).map Var.float)
  | .waif w, _, upper => by
    intro s bs s' hs h
    rw [writeVar] at h
    obtain ⟨r, hr, h⟩ := bind_ok.mp h
    obtain ⟨rfl, rfl⟩ : dbioWriteType .waif++r.1 = bs ∧ r.2 = s' := by simpa using pure_ok.mp h
    obtain ⟨hs', hcar, hin, hread⟩ := hwaif upper w s r.1 r.2 hs hr
    refine ⟨hs', hcar, hin, fun hsh t ht => ?_⟩
    obtain ⟨new, hnew, hread⟩ := hread hsh t ht
    refine ⟨new, hnew, fun m hm => ?_⟩
    have hpos := dbioWriteType_length .waif
    rw [List.length_append] at hm
    obtain ⟨m, rfl⟩ : ∃ m', m = m'+1 := ⟨m-1, by omega⟩
    have hb := (readFrom_restores (readType_reads .waif) t).bind (k := fun (r : ℤ×Loading) =>
      let l := oldType r.2.input.version r.1
      if l = 4 then readList (readVar o (m+1)) r.2
      else if l = 10 then readWaif (readVar o (m+1)) r.2
      else readFrom (dbioReadRest o (fun _ => .error .outOfFuel) l) r.2) (by
        simp only [oldType_dbType]
        exact hread m (by omega))
    exact hb
  | .list vs, hv, upper => by
    intro s bs s' hs h
    rw [writeVar] at h
    obtain ⟨r, hr, h⟩ := bind_ok.mp h
    obtain ⟨rfl, rfl⟩ : dbioWriteType .list++(dbioWriteNum (BitVec.ofNat 64 vs.length)++r.1) = bs ∧
      r.2 = s' := by simpa using pure_ok.mp h
    obtain ⟨hs', hcar, hin, hread⟩ :=
      vars_carries (fun m => readVar o (m+1)) (all_carried hfl hwaif vs hv.2) upper s r.1 r.2 hs hr
    refine ⟨hs', hcar, hin, fun hsh t ht => ?_⟩
    obtain ⟨new, hnew, hread⟩ := hread hsh t ht
    refine ⟨new, hnew, fun m hm => ?_⟩
    have hpos := dbioWriteType_length .list
    simp only [List.length_append] at hm
    obtain ⟨m, rfl⟩ : ∃ m', m = m'+1 := ⟨m-1, by omega⟩
    have hlist := (readFrom_restores (dbioReadInt_reads vs.length hv.1) t).bind
      (k := fun (l : ℤ×Loading) => (if l.1 < 0 then
          .error (.undefined "new_list of a negative size")
        else do
          let us ← readAll (readVar o (m+1)) l.1.toNat l.2
          return (Var.list us.1, us.2) : Result (Var×Loading))) (by
        have hn : ¬ ((vs.length:ℤ) < 0) := by omega
        simp only [hn, if_false, Int.toNat_natCast]
        exact (hread m (by omega)).last Var.list)
    have hb := (readFrom_restores (readType_reads .list) t).bind (k := fun (r : ℤ×Loading) =>
      let l := oldType r.2.input.version r.1
      if l = 4 then readList (readVar o (m+1)) r.2
      else if l = 10 then readWaif (readVar o (m+1)) r.2
      else readFrom (dbioReadRest o (fun _ => .error .outOfFuel) l) r.2) (by
        simp only [oldType_dbType]
        exact hlist)
    exact hb
theorem all_carried (hfl : ∀ d, Reads o.readFloat (o.writeFloat d) d)
    (hwaif : ∀ upper w, Carries (waif upper w) (w ∈ ·) (fun m => readWaif (readVar o (m+1)))
      (fun saved => .waif ⟨saved.idxOf w⟩)) :
    ∀ vs, AllStorable vs → ∀ v ∈ vs, ∀ upper, Carries (writeVar o waif upper v) (Within · v)
      (fun m => readVar o (m+1)) (image · v)
  | [], _, v, hm => by simp at hm
  | u::us, hvs, v, hm => by
    rcases List.mem_cons.mp hm with h|hm
    · rw [h]
      exact var_carries hfl hwaif u hvs.1
    · exact all_carried hfl hwaif us hvs.2 v hm
end

end Values

section Whole
variable {o : Others} (hfl : ∀ d, Reads o.readFloat (o.writeFloat d) d)
include hfl

theorem saveWaif_carries (n : ℕ) (upper : List ℕ → BitVec 32) (w : WaifRef) :
    Carries (saveWaif o n upper w) (w ∈ ·) (fun m => readWaif (readVar o (m+1)))
      (fun saved => .waif ⟨saved.idxOf w⟩) := by
  induction n generalizing upper w with
  | zero =>
    intro s bs s' _ h
    cases h
  | succ n ih => exact waif_carries (fun i v hv => var_carries hfl ih v hv _) w

theorem saveVars_carries (n : ℕ) {vs : List Var} (hvs : AllStorable vs)
    (upper : List ℕ → BitVec 32) : Carries (writeVars o (saveWaif o n) upper vs) (AllWithin · vs)
      (fun _ => loadVars o vs.length) (images · vs) := by
  have hall := all_carried hfl (saveWaif_carries hfl n) vs hvs
  apply vars_carries fun _ s => readVar o (s.input.rest.length+1) s
  intro v hv upper s bs s' hs h
  obtain ⟨hs', hcar, hin, hread⟩ := hall v hv upper s bs s' hs h
  refine ⟨hs', hcar, hin, fun hsh t ht => ?_⟩
  obtain ⟨new, hnew, hread⟩ := hread hsh t ht
  refine ⟨new, hnew, fun m hm f rest hf => ?_⟩
  apply hread f.rest.length _ f rest hf
  rw [hf, List.length_append]
  omega

end Whole

theorem Whole.short {refs : List WaifRef} {s : Saving} (h : Whole refs s)
    (hr : refs.length < 2^31) : Short s :=
  ⟨lt_of_le_of_lt h.length_le hr, h.lists⟩

/-- Any values whose waifs are there are written, and read back with every waif in them at its
number: each waif that was written for them is read once, with its class, its owner and the value
of each property, in which every waif is at its number again. No two waifs have one number, so that
what was shared is shared and nothing else is. -/
theorem saved_waifs_read_back (o : Others) (hfl : ∀ d, Reads o.readFloat (o.writeFloat d) d)
    (upper : List ℕ → BitVec 32) {vs : List Var} (hvs : AllStorable vs) {s : Saving} (hs : Ready s)
    (hw : Whole s.world.refs s) (hthere : AllWithin s.world.refs vs) (hnext : s.world.next < 2^31)
    {t : List (Option Waif)} (ht : t.length = s.saved.length) :
    ∃ bs s', saveVars o upper vs s = .ok (bs, s') ∧ Carried s s' ∧ AllWithin s'.saved vs ∧
      (∀ w ∈ s'.saved, ∀ w' ∈ s'.saved, s'.saved.idxOf w = s'.saved.idxOf w' → w = w') ∧
      ∃ new, Fresh s s' new ∧ ∀ (f : Input) (rest : List Byte), f.rest = bs++rest →
        ∃ b, loadVars o vs.length ⟨f, t⟩
          = .ok (images s'.saved vs, ⟨f.past bs rest b, t++new⟩) := by
  obtain ⟨bs, s', hsave, hw'⟩ := saveVars_completes o upper hw hthere
  obtain ⟨-, hcar, hin, hread⟩ := saveVars_carries hfl _ hvs upper s bs s' hs hsave
  have hsh := hw'.short (lt_of_le_of_lt s.world.refs_length hnext)
  obtain ⟨new, hnew, hread⟩ := hread hsh t ht
  refine ⟨bs, s', hsave, hcar, hin, fun w hw w' _ he => ?_, new, hnew, hread bs.length le_rfl⟩
  exact (List.idxOf_inj hw).mp he

/-- The waif at 7 has the waif at 9 for its value. -/
def twoWaifs (w : WaifRef) : Option Waif :=
  if w.ptr = 7 then some ⟨0, 0, some 0, [.waif ⟨9⟩], WaifMap.empty.mapProp 0⟩
  else if w.ptr = 9 then some ⟨0, 0, some 0, [.int 5], WaifMap.empty.mapProp 0⟩
  else none

theorem twoWaifs_bounded (w : WaifRef) (h : (twoWaifs w).isSome = true) : w.ptr < 10 := by
  by_cases h7 : w.ptr = 7
  · omega
  · by_cases h9 : w.ptr = 9
    · omega
    · simp [twoWaifs, h7, h9] at h

theorem twoWaifs_fields {r : WaifRef} {w : Waif} (h : twoWaifs r = some w) : w.cls = 0 ∧
    w.owner = 0 ∧ w.propdefs = some 0 ∧ w.map = WaifMap.empty.mapProp 0 ∧
    (w.propvals = [.waif ⟨9⟩] ∨ w.propvals = [.int 5]) := by
  unfold twoWaifs at h
  split at h
  · obtain rfl := Option.some.inj h
    exact ⟨rfl, rfl, rfl, rfl, .inl rfl⟩
  · split at h
    · obtain rfl := Option.some.inj h
      exact ⟨rfl, rfl, rfl, rfl, .inr rfl⟩
    · cases h

def sharedSaving : Saving where
  world :=
    { db :=
        { oneClass.db.modify 0 (fun o => { o with waifPropdefs := some 0 }) with
          wpds := fun _ => classObject.propdefs
          nextWpd := 1 }
      waifs := twoWaifs
      next := 10
      bounded := twoWaifs_bounded }
  saved := []

def sharedValues : List Var := [.list [.waif ⟨7⟩, .waif ⟨9⟩], .waif ⟨7⟩]

/-- A float as a number that says which one it is. -/
def codeFloats : Others where
  readFloat f := do
    let r ← dbioReadString f
    .ok (⟨(scan 0 r.1).1⟩, r.2)
  writeFloat d := dbioWriteString (print d.code)
  readWaif _ := .error (.undefined "no waif is read")
  writeWaif _ := []

theorem codeFloats_reads (d : Fnum) : Reads codeFloats.readFloat (codeFloats.writeFloat d) d := by
  have hs := dbioReadString_reads (print d.code) (print_not_mem _ (by decide) (by decide))
    (print_not_mem _ (by decide) (by decide))
  have hn : (scan 0 (print d.code)).1 = d.code := by
    have := scan_printNat d.code (show Decimal.Stops [] by simp [Decimal.Stops])
    rw [List.append_nil] at this
    rw [print, if_neg (by omega), Int.natAbs_natCast, this]
  have hm := hs.map fun x => Fnum.mk (scan 0 x).1
  rw [hn] at hm
  exact hm

theorem sharedSaving_ready : Ready sharedSaving := by
  have hcount : ∀ v : Var, [v].length = propvalCount 1 (WaifMap.empty.mapProp 0) := fun v => by rfl
  refine ⟨⟨fun i o ho p hp => ?_, fun r w hr => ?_⟩, fun r w hr => ?_, List.nodup_nil⟩
  · have hone : 0 < 1 := by decide
    by_cases hi : i = 0
    · subst hi
      have hself : sharedSaving.world.db.objects 0
          = some { classObject with waifPropdefs := some 0 } := rfl
      obtain rfl := Option.some.inj (hself.symm.trans ho)
      obtain rfl : 0 = p := Option.some.inj hp
      exact hone
    · have hne : sharedSaving.world.db.objects i = World.oneClass.db.objects i :=
        Db.modify_ne World.oneClass.db hi _
      rw [hne] at ho
      simp [oneClass, hi] at ho
  · obtain ⟨-, -, hp, hm, hv⟩ := twoWaifs_fields hr
    refine Waif.fits_of_some hp (show 0 < 1 by decide) ?_
    rw [hm]
    rcases hv with hv|hv
    · rw [hv]
      exact hcount _
    · rw [hv]
      exact hcount _
  · obtain ⟨hc, ho, -, -, hv⟩ := twoWaifs_fields hr
    refine ⟨by rw [hc]; decide, by rw [ho]; decide, ?_⟩
    rcases hv with hv|hv
    · simp [hv, Storable]
    · simp [hv, Storable]

theorem sharedSaving_objects {i : ℤ} {o : Object} (ho : sharedSaving.world.db.objects i = some o) :
    i = 0 ∧ o = { classObject with waifPropdefs := some 0 } := by
  by_cases hi : i = 0
  · subst hi
    exact ⟨rfl, (Option.some.inj ho).symm⟩
  · have hne : sharedSaving.world.db.objects i = World.oneClass.db.objects i :=
      Db.modify_ne World.oneClass.db hi _
    rw [hne] at ho
    simp [oneClass, hi] at ho

theorem sharedSaving_kin : Forest.IsForest Database.nothing sharedSaving.world.db.kin := by
  have hkin : sharedSaving.world.db.kin = Db.empty.createObject.kin := by
    funext i
    cases ho : sharedSaving.world.db.objects i with
    | some o =>
      obtain ⟨rfl, rfl⟩ := sharedSaving_objects ho
      rfl
    | none =>
      have hi : i ≠ 0 := by
        rintro rfl
        cases ho
      rw [Db.kin, Db.kin, ho]
      simp [Db.createObject, Db.empty, hi]
  rw [hkin]
  exact (Db.createObject_sound Db.empty_sound).kin

theorem sharedSaving_whole : Whole sharedSaving.world.refs sharedSaving where
  ok := sharedSaving_ready.ok
  kin := sharedSaving_kin
  there _ := World.mem_refs.symm
  closed r w hr v hv := by
    obtain ⟨-, -, -, -, hvals|hvals⟩ := twoWaifs_fields hr
    · obtain rfl : v = .waif ⟨9⟩ := by simpa [hvals] using hv
      exact World.mem_refs.mpr rfl
    · obtain rfl : v = .int 5 := by simpa [hvals] using hv
      trivial
  nodup := List.nodup_nil
  saved := List.nil_subset _
  lists _ _ := show 1 < 2^31 by decide
  defs i chain hl := by
    cases hl with
    | nil => decide
    | cons ho hrest =>
      obtain ⟨-, rfl⟩ := sharedSaving_objects ho
      obtain rfl := hrest.unique (.nil rfl)
      show 1 < 2^31
      decide

theorem sharedSaving_saved : ∃ bs s', saveVars codeFloats (fun _ => 0) sharedValues sharedSaving
    = .ok (bs, s') ∧ s'.saved = [⟨7⟩, ⟨9⟩] := by
  have hok : (saveVars codeFloats (fun _ => 0) sharedValues sharedSaving).map (·.2.saved)
      = .ok [⟨7⟩, ⟨9⟩] := rfl
  cases h : saveVars codeFloats (fun _ => 0) sharedValues sharedSaving with
  | error e =>
    rw [h] at hok
    cases hok
  | ok r =>
    rw [h] at hok
    exact ⟨r.1, r.2, rfl, Except.ok.inj hok⟩

theorem saved_waifs_read_back_shared : ∃ bs s' b new, saveVars codeFloats (fun _ => 0) sharedValues
      sharedSaving = .ok (bs, s') ∧ Fresh sharedSaving s' new ∧
    loadVars codeFloats 2 ⟨⟨bs, 0, [], [], .bfBugFixed⟩, []⟩
      = .ok ([.list [.waif ⟨0⟩, .waif ⟨1⟩], .waif ⟨0⟩], ⟨⟨[], 0+bs.length, b, [], .bfBugFixed⟩, new⟩) := by
  have hthere : AllWithin sharedSaving.world.refs sharedValues := by
    have h7 : ⟨7⟩ ∈ sharedSaving.world.refs := World.mem_refs.mpr rfl
    have h9 : ⟨9⟩ ∈ sharedSaving.world.refs := World.mem_refs.mpr rfl
    exact ⟨⟨h7, h9, trivial⟩, h7, trivial⟩
  obtain ⟨bs, s', hsave, -, -, -, new, hnew, hread⟩ := saved_waifs_read_back codeFloats
    codeFloats_reads (fun _ => 0)
    (show AllStorable sharedValues by simp [sharedValues, AllStorable, Storable])
    sharedSaving_ready sharedSaving_whole hthere (show 10 < 2^31 by decide) (t := []) rfl
  obtain ⟨b, hload⟩ := hread ⟨bs, 0, [], [], .bfBugFixed⟩ [] (List.append_nil bs).symm
  obtain ⟨cs, u, hsave', hsaved⟩ := sharedSaving_saved
  obtain ⟨-, rfl⟩ : bs = cs ∧ s' = u := by simpa using hsave.symm.trans hsave'
  rw [hsaved] at hload
  exact ⟨bs, s', b, new, hsave, hnew, hload⟩

end LambdaMoo.WaifFile
