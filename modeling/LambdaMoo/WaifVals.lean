import LambdaMoo.WaifSaving

/-!
# Reading the values of a waif

The values of the first properties are read while the bitmap covers their
numbers, the others into the cells that are there for them. Both loops follow
the one that wrote the values, and end at the number behind them.
-/

set_option autoImplicit false

namespace LambdaMoo.WaifFile
open LambdaMoo.DbIo LambdaMoo.Database

/-- The table and every list of properties have an `int` for a length. -/
structure Short (s : Saving) : Prop where
  saved : s.saved.length < 2^31
  wpds : ∀ p, p < s.world.db.nextWpd → (s.world.db.wpds p).length < 2^31

/-- What one routine writes another reads, when it has fuel for each byte of it. -/
def Carries {α : Type} (write : Saving → Result (List Byte × Saving))
    (within : List WaifRef → Prop) (read : ℕ → Loading → Result (α × Loading))
    (result : List WaifRef → α) : Prop :=
  ∀ s bs s', Ready s → write s = .ok (bs, s') → Ready s' ∧ Carried s s' ∧ within s'.saved ∧
    (Short s' → ∀ t : List (Option Waif), t.length = s.saved.length → ∃ new, Fresh s s' new ∧
      ∀ m, bs.length ≤ m → Restores (read m) bs t (t++new) (result s'.saved))

theorem Short.carried {s s' : Saving} (h : Short s') (hc : Carried s s') : Short s where
  saved := lt_of_le_of_lt hc.saved.length_le h.saved
  wpds p hp := by
    rw [← hc.wpds p hp]
    exact h.wpds p (lt_of_lt_of_le hp hc.next)

theorem dbioReadInt_end : Reads dbioReadInt (dbioWriteNum (-1)) (-1) := by
  have h := (dbioReadNum_reads (-1)).map fun n => (n.truncate 32).toInt
  have hn : (((-1 : Num)).truncate 32).toInt = -1 := by decide
  rw [hn] at h
  exact h

/-- The number behind the values read so far, and what comes after it. -/
def readTail (read : Loading → Result (Var × Loading)) (room k : ℕ) (vals : List Var)
    (s : Loading) : Result (List Var × Loading) := do
  let r ← readFrom dbioReadInt s
  if 0 ≤ r.1 then readOthers read room k vals r.1 r.2 else return (vals, r.2)

theorem readOthers_tail (read : Loading → Result (Var × Loading)) (room k : ℕ) (vals : List Var)
    (cur : ℤ) (s : Loading) : readOthers read room (k+1) vals cur s =
      if (vals++List.replicate (cur-(nMappableProps+vals.length)).toNat Var.clear).length < room
      then do
        let v ← read s
        readTail read room k
          (vals++List.replicate (cur-(nMappableProps+vals.length)).toNat .clear++[v.1]) v.2
      else .error (.undefined "propvals out of bounds") := rfl

section Loops
variable {write : ℕ → Var → Saving → Result (List Byte × Saving)}
  {read : ℕ → Loading → Result (Var × Loading)}
  (hw : ∀ i v, Storable v → Carries (write i v) (Within · v) read (image · v))

theorem clear_of_type {v : Var} (h : v.type = .clear) : v = .clear := by
  cases v <;> simp [Var.type] at h
  rfl

/-- The first number of the text is none that the bitmap covers. -/
theorem writeVals_head {map : WaifMap} {n i : ℕ} {vals : List Var} {s s' : Saving} {bs : List Byte}
    (hi : nMappableProps ≤ i) (hn : i+n < 2^31)
    (h : writeVals write map n i vals s = .ok (bs, s')) : ∃ c cs tail,
      bs++dbioWriteNum (-1) = cs++tail ∧ Reads dbioReadInt cs c ∧
      ¬ (c < nMappableProps ∧ -1 < c) := by
  induction n generalizing i vals s bs s' with
  | zero =>
    obtain ⟨rfl, -⟩ : [] = bs ∧ s = s' := by simpa [writeVals] using h
    exact ⟨-1, _, [], by simp, dbioReadInt_end, by simp⟩
  | succ n ih =>
    cases vals with
    | nil =>
      rw [writeVals, if_pos (map.stored_of_ge hi)] at h
      cases h
    | cons v vals =>
      rw [writeVals, if_pos (map.stored_of_ge hi)] at h
      split at h
      · obtain ⟨r, hr, h⟩ := bind_ok.mp h
        obtain ⟨u, hu, h⟩ := bind_ok.mp h
        obtain ⟨rfl, -⟩ : dbioWriteNum (BitVec.ofNat 64 i)++r.1++u.1 = bs ∧ u.2 = s' := by
          simpa using pure_ok.mp h
        refine ⟨i, dbioWriteNum (BitVec.ofNat 64 i), r.1++(u.1++dbioWriteNum (-1)), ?_,
          dbioReadInt_reads i (by omega), by omega⟩
        simp only [List.append_assoc]
      · exact ih (by omega) (by omega) h

include hw

/-- What the loop over the properties beyond the bitmap leaves, and how its text is read. -/
def OthersCarried (read : ℕ → Loading → Result (Var × Loading)) (n i : ℕ) (vals : List Var)
    (s s' : Saving) (bs : List Byte) : Prop :=
  Ready s' ∧ Carried s s' ∧ (∀ v ∈ vals, Within s'.saved v) ∧
    (i+n < 2^31 → Short s' → ∀ t : List (Option Waif), t.length = s.saved.length → ∃ new, Fresh s s' new ∧
      ∀ m k, bs.length ≤ m → bs.length ≤ k → ∀ old : List Var, old.length ≤ i-nMappableProps →
        ∃ out : List Var, out.length ≤ i+n-nMappableProps ∧
          out++List.replicate (i+n-nMappableProps-out.length) .clear =
            old++(List.replicate (i-nMappableProps-old.length) .clear
              ++vals.map (image s'.saved)) ∧
          Restores (readTail (read m) (i+n-nMappableProps) k old) (bs++dbioWriteNum (-1))
            t (t++new) out)

section Others
variable {map : WaifMap} {n i : ℕ} {vals : List Var} {s s' : Saving} {bs : List Byte}

omit hw in
theorem others_end (hr : Ready s) : OthersCarried read 0 i [] s s [] := by
  refine ⟨hr, .refl s, by simp, fun _ _ t _ => ⟨[], .nil s, fun m k _ _ old hold => ?_⟩⟩
  refine ⟨old, by simpa using hold, by simp, ?_⟩
  have hb := (readFrom_restores dbioReadInt_end t).bind
    (k := fun r => if 0 ≤ r.1 then readOthers (read m) (i+0-nMappableProps) k old r.1 r.2
      else return (old, r.2)) (by simpa using restores_pure t old)
  rw [List.append_nil] at hb
  rw [List.nil_append, List.append_nil]
  exact hb

omit hw in
/-- A clear value leaves no text; its cell is filled when a later one is read. -/
theorem others_clear (hi : nMappableProps ≤ i) (h : OthersCarried read n (i+1) vals s s' bs) :
    OthersCarried read (n+1) i (.clear::vals) s s' bs := by
  have hsum : i+1+n = i+(n+1) := by omega
  obtain ⟨hr', hcar, hin, hread⟩ := h
  refine ⟨hr', hcar, ?_, fun hn hs t ht => ?_⟩
  · intro x hx
    rcases List.mem_cons.mp hx with rfl|hx
    · simp [Within]
    · exact hin x hx
  · obtain ⟨new, hnew, hread⟩ := hread (by omega) hs t ht
    refine ⟨new, hnew, fun m k hm hk old hold => ?_⟩
    obtain ⟨out, hout, heq, hres⟩ := hread m k hm hk old (by omega)
    rw [hsum] at hout heq hres
    refine ⟨out, hout, ?_, hres⟩
    have hrep : i+1-nMappableProps-old.length = (i-nMappableProps-old.length)+1 := by omega
    rw [heq, hrep, List.replicate_succ', List.map_cons, List.append_assoc]
    rfl

theorem others_value (ih : ∀ {s bs}, Ready s → writeVals write map n (i+1) vals s = .ok (bs, s') →
      OthersCarried read n (i+1) vals s s' bs) (hi : nMappableProps ≤ i) {v : Var}
    (hst : Storable v) (hr : Ready s) (h : (do
      let r ← write i v s
      let t ← writeVals write map n (i+1) vals r.2
      return (dbioWriteNum (BitVec.ofNat 64 i)++r.1++t.1, t.2)) = .ok (bs, s')) :
    OthersCarried read (n+1) i (v::vals) s s' bs := by
  have hsum : i+1+n = i+(n+1) := by omega
  obtain ⟨r, hwr, h⟩ := bind_ok.mp h
  obtain ⟨u, hu, h⟩ := bind_ok.mp h
  obtain ⟨rfl, rfl⟩ : dbioWriteNum (BitVec.ofNat 64 i)++r.1++u.1 = bs ∧ u.2 = s' := by
    simpa using pure_ok.mp h
  obtain ⟨hr1, hcar1, hin1, hread1⟩ := hw i v hst s r.1 r.2 hr hwr
  obtain ⟨hr', hcar, hin, hread⟩ := ih hr1 hu
  have hv := image_extend hcar.saved v hin1
  refine ⟨hr', hcar1.trans hcar, ?_, fun hn hs t ht => ?_⟩
  · intro x hx
    rcases List.mem_cons.mp hx with rfl|hx
    · exact hv.1
    · exact hin x hx
  · obtain ⟨new1, hnew1, hread1⟩ := hread1 (hs.carried hcar) t ht
    obtain ⟨new, hnew, hread⟩ := hread (by omega) hs (t++new1) (by
      rw [List.length_append, ht, hnew1.length])
    refine ⟨new1++new, hnew1.append hr1 hcar hnew, fun m k hm hk old hold => ?_⟩
    have hpos : 0 < (dbioWriteNum (BitVec.ofNat 64 i)).length := by simp [dbioWriteNum]
    simp only [List.length_append] at hm hk
    obtain ⟨k, rfl⟩ : ∃ k', k = k'+1 := ⟨k-1, by omega⟩
    obtain ⟨pre, hpre⟩ : ∃ pre, pre = old++List.replicate
      ((i:ℤ)-(nMappableProps+old.length)).toNat Var.clear := ⟨_, rfl⟩
    have hfill : ((i:ℤ)-(nMappableProps+old.length)).toNat
        = i-nMappableProps-old.length := by omega
    have hlen : pre.length = i-nMappableProps := by
      rw [hpre, hfill, List.length_append, List.length_replicate]
      omega
    obtain ⟨out, hout, heq, hres⟩ := hread m k (by omega) (by omega)
      (pre++[image u.2.saved v]) (by
        rw [List.length_append, hlen, List.length_singleton]
        omega)
    rw [hsum] at hout heq hres
    refine ⟨out, hout, ?_, ?_⟩
    · have hz : i+1-nMappableProps-(pre++[image u.2.saved v]).length = 0 := by
        rw [List.length_append, hlen, List.length_singleton]
        omega
      rw [heq, hz, hpre, hfill, List.map_cons]
      simp only [List.replicate_zero, List.nil_append, List.append_assoc, List.cons_append]
    · have hentry : Restores (read m) r.1 t (t++new1) (image u.2.saved v) := by
        rw [hv.2]
        exact hread1 m (by omega)
      have hnext := hentry.bind (k := fun x => readTail (read m) (i+(n+1)-nMappableProps) k
        (pre++[x.1]) x.2) hres
      have hroom : pre.length < i+(n+1)-nMappableProps := by omega
      have hnum := (readFrom_restores (dbioReadInt_reads i (by omega)) t).bind
        (k := fun x => if 0 ≤ x.1 then readOthers (read m) (i+(n+1)-nMappableProps) (k+1) old
          x.1 x.2 else return (old, x.2)) (b := out) (by
            simp only [Int.natCast_nonneg, if_true, readOthers_tail, ← hpre, hroom]
            exact hnext)
      simp only [List.append_assoc] at hnum ⊢
      exact hnum

/-- The loop over the properties beyond the bitmap. -/
theorem others_restores (hi : nMappableProps ≤ i) (hl : vals.length = n)
    (hst : ∀ v ∈ vals, Storable v) (hr : Ready s)
    (h : writeVals write map n i vals s = .ok (bs, s')) : OthersCarried read n i vals s s' bs := by
  induction n generalizing i vals s bs with
  | zero =>
    obtain ⟨rfl, rfl⟩ : [] = bs ∧ s = s' := by simpa [writeVals] using h
    obtain rfl : vals = [] := List.length_eq_zero_iff.mp hl
    exact others_end hr
  | succ n ih =>
    cases vals with
    | nil => simp at hl
    | cons v vals =>
      have hl' : vals.length = n := by simpa using hl
      have hst' : ∀ v ∈ vals, Storable v := fun x hx => hst x (List.mem_cons_of_mem _ hx)
      rw [writeVals, if_pos (map.stored_of_ge hi)] at h
      simp only [show ¬ i < nMappableProps by omega, false_or] at h
      by_cases hc : v.type = .clear
      · obtain rfl := clear_of_type hc
        rw [if_neg (by simp [Var.type])] at h
        exact others_clear hi (ih (by omega) hl' hst' hr h)
      · rw [if_pos hc] at h
        exact others_value hw (ih (by omega) hl' hst') hi (hst v (by simp)) hr h

end Others

omit hw in
theorem drop_place {w : Waif} {i n : ℕ} (hc : w.propvals.length = propvalCount n w.map)
    (hi : i < n) (hs : w.map.stored i = true) :
    w.propvals.drop (w.map.place i) = w.value i::w.propvals.drop (w.map.place (i+1)) := by
  have hlt := place_lt hc hi hs
  have hnext : w.map.place (i+1) = w.map.place i+1 := by
    rw [WaifMap.place, Nat.count_succ, if_pos hs]
    rfl
  rw [List.drop_eq_getElem_cons hlt, hnext, Waif.value, Packed.entry, if_pos hs]
  congr 1
  change _ = w.propvals[w.map.place i]?.getD .clear
  rw [List.getElem?_eq_getElem hlt]
  rfl

omit hw in
/-- Where the first number is not covered, only the second loop is left. -/
theorem readPropvals_tail {rd : Loading → Result (Var × Loading)} {room k j : ℕ} {vals out : List Var}
    {map : WaifMap} {cs tail : List Byte} {c : ℤ} {t t' : List (Option Waif)}
    (hc : Reads dbioReadInt cs c) (hcov : ¬ (c < nMappableProps ∧ -1 < c))
    (h : Restores (readTail rd room k []) (cs++tail) t t' out) :
    Restores (readPropvals rd room k (j+1) vals map) (cs++tail) t t' (vals, map, out) := by
  intro f rest hf
  obtain ⟨b, hb⟩ := h f rest hf
  obtain ⟨u, hu⟩ := readFrom_restores hc t f (tail++rest) (by rw [hf, List.append_assoc])
  refine ⟨b, ?_⟩
  rw [readTail, hu] at hb
  rw [readPropvals, readMapped, hu]
  simp only [bind, Except.bind, pure, Except.pure, if_neg hcov] at hb ⊢
  split at hb
  · next h0 =>
    simp only [h0, if_true, hb]
  · next h0 =>
    obtain ⟨rfl, hf', rfl⟩ : out = [] ∧ f.past cs (tail++rest) u = f.past (cs++tail) rest b ∧
        t = t' := by simpa using hb
    simp only [h0, if_false, hf']

omit hw in
/-- One more value that the bitmap covers. -/
theorem readPropvals_covered {rd : Loading → Result (Var × Loading)} {room k j x : ℕ}
    {vals : List Var} {map : WaifMap} {cs ds : List Byte} {v : Var}
    {t t1 t2 : List (Option Waif)} {a : List Var × WaifMap × List Var} (hx : x < nMappableProps)
    (hl : vals.length < nMappableProps) (hv : Restores rd cs t t1 v)
    (h : Restores (readPropvals rd room k j (vals++[v]) (map.mapProp x)) ds t1 t2 a) :
    Restores (readPropvals rd room k (j+1) vals map) (dbioWriteNum (BitVec.ofNat 64 x)++(cs++ds))
      t t2 a := by
  have hx31 : x < 2^31 := lt_trans hx (by decide)
  have hcov : (x:ℤ) < nMappableProps ∧ -1 < (x:ℤ) := by omega
  intro f rest hf
  obtain ⟨u, hu⟩ := readFrom_restores (dbioReadInt_reads x hx31) t f (cs++(ds++rest)) (by
    rw [hf]
    simp only [List.append_assoc])
  obtain ⟨y, hy⟩ := hv (f.past (dbioWriteNum (BitVec.ofNat 64 x)) (cs++(ds++rest)) u) (ds++rest) rfl
  rw [past_past] at hy
  obtain ⟨b, hb⟩ := h (f.past (dbioWriteNum (BitVec.ofNat 64 x)++cs) (ds++rest) y) rest rfl
  rw [past_past, List.append_assoc, readPropvals] at hb
  refine ⟨b, ?_⟩
  rw [readPropvals, readMapped, hu]
  simp only [bind, Except.bind, hcov, and_self, if_true, hl, hy, Int.toNat_natCast] at hb ⊢
  exact hb

omit hw in
/-- The values that come behind those the bitmap covers. -/
theorem drop_covered {w : Waif} {n : ℕ}
    (hc : w.propvals.length = propvalCount (nMappableProps+n) w.map) :
    w.propvals.drop (w.map.place nMappableProps)
      = (List.range' nMappableProps n).map w.value := by
  have hplace : ∀ k, w.map.place (nMappableProps+k) = w.map.place nMappableProps+k := by
    intro k
    rw [w.map.place_of_ge (le_refl _), w.map.place_of_ge (Nat.le_add_right nMappableProps k)]
    omega
  have hl : w.propvals.length = w.map.place nMappableProps+n := by
    rw [hc, w.map.propvalCount_eq, Nat.max_eq_left (Nat.le_add_right ..), hplace]
  apply List.ext_getElem?
  intro k
  by_cases hk : k < n
  · have hs : w.map.stored (nMappableProps+k) = true := w.map.stored_of_ge (Nat.le_add_right ..)
    have hd := drop_place hc (show nMappableProps+k < nMappableProps+n by omega) hs
    have h0 : (w.propvals.drop (w.map.place (nMappableProps+k)))[0]?
        = some (w.value (nMappableProps+k)) := by
      rw [hd]
      rfl
    rw [hplace, List.getElem?_drop, Nat.add_zero] at h0
    rw [List.getElem?_drop, h0, List.getElem?_map, List.getElem?_range' hk]
    simp
  · rw [List.getElem?_eq_none (by simp; omega), List.getElem?_eq_none (by simp; omega)]

/-- What the loop over the properties from number `i` on leaves, and how its text is read. -/
def ValsCarried (read : ℕ → Loading → Result (Var × Loading)) (w : Waif) (n i : ℕ) (s s' : Saving)
    (bs : List Byte) : Prop :=
  Ready s' ∧ Carried s s' ∧ (∀ x, i ≤ x → x < i+n → Within s'.saved (w.value x)) ∧
    (i+n < 2^31 → Short s' → ∀ t : List (Option Waif), t.length = s.saved.length → ∃ new, Fresh s s' new ∧
      ∀ m k j, bs.length ≤ m → bs.length ≤ k → bs.length < j → ∀ (old : List Var) (map0 : WaifMap),
        old.length ≤ i → ∃ map out,
          (∀ x, map.propMapped x = (map0.propMapped x ||
            (decide (i ≤ x ∧ x < min (i+n) nMappableProps) && w.map.propMapped x))) ∧
          out.length ≤ i+n-nMappableProps ∧
          out++List.replicate (i+n-nMappableProps-out.length) .clear =
            (List.range' nMappableProps (i+n-nMappableProps)).map
              (fun x => image s'.saved (w.value x)) ∧
          Restores (readPropvals (read m) (i+n-nMappableProps) k j old map0)
            (bs++dbioWriteNum (-1)) t (t++new)
            (old++((List.range' i (min (i+n) nMappableProps-i)).filter (w.map.stored ·)).map
              (fun x => image s'.saved (w.value x)), map, out))

section Vals
variable {w : Waif} {n i : ℕ} {s s' : Saving} {bs : List Byte}

omit hw in
/-- Behind the last property. -/
theorem vals_end (hi : i ≤ nMappableProps) (hr : Ready s) : ValsCarried read w 0 i s s [] := by
  refine ⟨hr, .refl s, fun x h1 h2 => by omega, fun _ _ t _ => ⟨[], .nil s, ?_⟩⟩
  intro m k j _ _ hj old map0 _
  obtain ⟨j, rfl⟩ : ∃ j', j = j'+1 := ⟨j-1, by simp at hj; omega⟩
  have hz : i+0-nMappableProps = 0 := by omega
  have hm : min (i+0) nMappableProps-i = 0 := by omega
  rw [hz, hm]
  refine ⟨map0, [], ?_, by simp, by simp, ?_⟩
  · intro x
    rw [decide_eq_false (show ¬ (i ≤ x ∧ x < min (i+0) nMappableProps) by omega),
      Bool.false_and, Bool.or_false]
  · have htail : Restores (readTail (read m) 0 k []) (dbioWriteNum (-1)++[]) t t [] := by
      have hb := (readFrom_restores dbioReadInt_end t).bind
        (k := fun r => if 0 ≤ r.1 then readOthers (read m) 0 k [] r.1 r.2
          else return ([], r.2)) (by simpa using restores_pure t ([] : List Var))
      exact hb
    have hb : Restores (readPropvals (read m) 0 k (j+1) old map0) (dbioWriteNum (-1)++[]) t t
        (old, map0, []) := readPropvals_tail dbioReadInt_end (by simp) htail
    simpa using hb

/-- From the first property that the bitmap does not cover. -/
theorem vals_uncovered (hi : i = nMappableProps)
    (hc : w.propvals.length = propvalCount (i+(n+1)) w.map) (hst : ∀ v ∈ w.propvals, Storable v)
    (hr : Ready s)
    (h : writeVals write w.map (n+1) i (w.propvals.drop (w.map.place i)) s = .ok (bs, s')) :
    ValsCarried read w (n+1) i s s' bs := by
  subst hi
  have hvals := drop_covered hc
  have hl : (w.propvals.drop (w.map.place nMappableProps)).length = n+1 := by
    rw [hvals, List.length_map, List.length_range']
  obtain ⟨hr', hcar, hin, hread⟩ := others_restores hw (le_refl _) hl
    (fun v hv => hst v (List.mem_of_mem_drop hv)) hr h
  refine ⟨hr', hcar, fun x h1 h2 => ?_, fun hn hs t ht => ?_⟩
  · apply hin
    rw [hvals]
    exact List.mem_map.mpr ⟨x, by simp; omega, rfl⟩
  · obtain ⟨c, cs, tail, heq, hcs, hcov⟩ := writeVals_head (le_refl _) hn h
    obtain ⟨new, hnew, hread⟩ := hread (by omega) hs t ht
    refine ⟨new, hnew, fun m k j hm hk hj old map0 hold => ?_⟩
    obtain ⟨j, rfl⟩ : ∃ j', j = j'+1 := ⟨j-1, by omega⟩
    obtain ⟨out, hout, hfill, hres⟩ := hread m k hm hk [] (by simp)
    have hmin : min (nMappableProps+(n+1)) nMappableProps-nMappableProps = 0 := by omega
    refine ⟨map0, out, fun x => ?_, hout, ?_, ?_⟩
    · rw [decide_eq_false (show ¬ (nMappableProps ≤ x ∧ x < min (nMappableProps+(n+1)) nMappableProps) by omega),
        Bool.false_and, Bool.or_false]
    · have hrange : nMappableProps+(n+1)-nMappableProps = n+1 := by omega
      rw [hfill, hvals, hrange]
      simp
    · rw [hmin]
      rw [heq] at hres ⊢
      have hb : Restores (readPropvals (read m) (nMappableProps+(n+1)-nMappableProps) k (j+1) old map0)
          (cs++tail) t (t++new) (old, map0, out) := readPropvals_tail hcs hcov hres
      simpa using hb

/-- A property that the bitmap covers and that has a value, before the others. -/
theorem vals_stored (ih : ∀ {s bs}, Ready s → writeVals write w.map n (i+1)
      (w.propvals.drop (w.map.place (i+1))) s = .ok (bs, s') → ValsCarried read w n (i+1) s s' bs)
    (hlt : i < nMappableProps) (hsi : w.map.stored i = true)
    (hc : w.propvals.length = propvalCount (i+(n+1)) w.map) (hst : ∀ v ∈ w.propvals, Storable v)
    (hr : Ready s)
    (h : writeVals write w.map (n+1) i (w.propvals.drop (w.map.place i)) s = .ok (bs, s')) :
    ValsCarried read w (n+1) i s s' bs := by
  have hsum : i+1+n = i+(n+1) := by omega
  have hmin : min (i+(n+1)) nMappableProps-i = (min (i+1+n) nMappableProps-(i+1))+1 := by omega
  have hd := drop_place hc (show i < i+(n+1) by omega) hsi
  rw [hd, writeVals, if_pos hsi] at h
  simp only [hlt, true_or, if_true] at h
  obtain ⟨r, hwr, h⟩ := bind_ok.mp h
  obtain ⟨u, hu, h⟩ := bind_ok.mp h
  obtain ⟨rfl, rfl⟩ : dbioWriteNum (BitVec.ofNat 64 i)++r.1++u.1 = bs ∧ u.2 = s' := by
    simpa using pure_ok.mp h
  have hmem : w.value i ∈ w.propvals := by
    apply List.mem_of_mem_drop (i := w.map.place i)
    rw [hd]
    simp
  obtain ⟨hr1, hcar1, hin1, hread1⟩ := hw i _ (hst _ hmem) s r.1 r.2 hr hwr
  obtain ⟨hr', hcar, hin, hread⟩ := ih hr1 hu
  have hv := image_extend hcar.saved _ hin1
  refine ⟨hr', hcar1.trans hcar, fun x h1 h2 => ?_, fun hn hs t ht => ?_⟩
  · rcases Nat.eq_or_lt_of_le h1 with rfl|h1
    · exact hv.1
    · exact hin x h1 (by omega)
  · obtain ⟨new1, hnew1, hread1⟩ := hread1 (hs.carried hcar) t ht
    obtain ⟨new, hnew, hread⟩ := hread (by omega) hs (t++new1) (by
      rw [List.length_append, ht, hnew1.length])
    refine ⟨new1++new, hnew1.append hr1 hcar hnew, ?_⟩
    intro m k j hm hk hj old map0 hold
    simp only [List.length_append] at hm hk hj
    have hpos : 0 < (dbioWriteNum (BitVec.ofNat 64 i)).length := by simp [dbioWriteNum]
    obtain ⟨j, rfl⟩ : ∃ j', j = j'+1 := ⟨j-1, by omega⟩
    obtain ⟨map, out, hmap, hout, hfill, hres⟩ := hread m k j (by omega) (by omega) (by omega)
      (old++[image u.2.saved (w.value i)]) (map0.mapProp i) (by
        rw [List.length_append, List.length_singleton]
        omega)
    rw [hsum] at hmap hout hfill hres
    refine ⟨map, out, fun x => ?_, hout, hfill, ?_⟩
    · rw [hmap, WaifMap.propMapped_mapProp _ hlt]
      have hm' : w.map.propMapped i = true := by rw [← w.map.stored_of_lt hlt, hsi]
      by_cases hx : x = i
      · subst hx
        simp [hm']
        omega
      · have hiff : (i+1 ≤ x ∧ x < min (i+(n+1)) nMappableProps) ↔
            (i ≤ x ∧ x < min (i+(n+1)) nMappableProps) := by omega
        simp only [hx, decide_false, Bool.or_false, hiff]
    · have hentry : Restores (read m) r.1 t (t++new1) (image u.2.saved (w.value i)) := by
        rw [hv.2]
        exact hread1 m (by omega)
      have hb := readPropvals_covered (j := j) hlt (by omega) hentry hres
      have hfil : (List.range' i (min (i+1+n) nMappableProps-(i+1)+1)).filter
          (w.map.stored ·) = i::(List.range' (i+1) (min (i+1+n) nMappableProps-(i+1))).filter
          (w.map.stored ·) := by
        rw [List.range'_succ, List.filter_cons_of_pos hsi]
      rw [hmin, hfil, List.map_cons]
      rw [hsum]
      simpa only [List.append_assoc, List.cons_append, List.nil_append] using hb

omit hw in
/-- A property that has no value, before the others. -/
theorem vals_skipped (ih : writeVals write w.map n (i+1) (w.propvals.drop (w.map.place (i+1))) s
      = .ok (bs, s') → ValsCarried read w n (i+1) s s' bs)
    (hlt : i < nMappableProps) (hsi : ¬ w.map.stored i = true)
    (h : writeVals write w.map (n+1) i (w.propvals.drop (w.map.place i)) s = .ok (bs, s')) :
    ValsCarried read w (n+1) i s s' bs := by
  have hsum : i+1+n = i+(n+1) := by omega
  have hmin : min (i+(n+1)) nMappableProps-i = (min (i+1+n) nMappableProps-(i+1))+1 := by omega
  have hplace : w.map.place (i+1) = w.map.place i := by
    rw [WaifMap.place, Nat.count_succ, if_neg hsi]
    rfl
  unfold writeVals at h
  rw [if_neg hsi, ← hplace] at h
  obtain ⟨hr', hcar, hin, hread⟩ := ih h
  refine ⟨hr', hcar, fun x h1 h2 => ?_, fun hn hs t ht => ?_⟩
  · rcases Nat.eq_or_lt_of_le h1 with rfl|h1
    · rw [Waif.value, Packed.entry, if_neg hsi]
      simp [Within]
    · exact hin x h1 (by omega)
  · obtain ⟨new, hnew, hread⟩ := hread (by omega) hs t ht
    refine ⟨new, hnew, fun m k j hm hk hj old map0 hold => ?_⟩
    obtain ⟨map, out, hmap, hout, hfill, hres⟩ := hread m k j hm hk hj old map0 (by omega)
    rw [hsum] at hmap hout hfill hres
    have hm' : w.map.propMapped i = false := by
      rw [← w.map.stored_of_lt hlt]
      exact Bool.eq_false_iff.mpr hsi
    refine ⟨map, out, fun x => ?_, hout, hfill, ?_⟩
    · rw [hmap]
      by_cases hx : x = i
      · subst hx
        simp [hm']
      · have hiff : (i+1 ≤ x ∧ x < min (i+(n+1)) nMappableProps) ↔
            (i ≤ x ∧ x < min (i+(n+1)) nMappableProps) := by omega
        simp only [hiff]
    · rw [hmin, hsum, List.range'_succ, List.filter_cons_of_neg (by simpa using hsi)]
      exact hres

/-- All values of a waif. -/
theorem vals_restores (hi : i ≤ nMappableProps)
    (hc : 0 < n → w.propvals.length = propvalCount (i+n) w.map)
    (hst : ∀ v ∈ w.propvals, Storable v) (hr : Ready s)
    (h : writeVals write w.map n i (w.propvals.drop (w.map.place i)) s = .ok (bs, s')) :
    ValsCarried read w n i s s' bs := by
  induction n generalizing i s bs with
  | zero =>
    obtain ⟨rfl, rfl⟩ : [] = bs ∧ s = s' := by simpa [writeVals] using h
    exact vals_end hi hr
  | succ n ih =>
    have hsum : i+1+n = i+(n+1) := by omega
    replace hc := hc (Nat.succ_pos n)
    by_cases h96 : i = nMappableProps
    · exact vals_uncovered hw h96 hc hst hr h
    · have hlt : i < nMappableProps := by omega
      by_cases hsi : w.map.stored i = true
      · exact vals_stored hw (ih (by omega) fun _ => hsum ▸ hc) hlt hsi hc hst hr h
      · exact vals_skipped (ih (by omega) (fun _ => hsum ▸ hc) hr) hlt hsi h

end Vals
end Loops

end LambdaMoo.WaifFile
