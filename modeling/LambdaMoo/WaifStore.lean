import LambdaMoo.Packed
import LambdaMoo.Popcount
import LambdaMoo.Waif

/-!
# The packed values of a waif

The values that are stored are in the order of their properties, so the place
of one is the number of properties before it that have a value.
-/

set_option autoImplicit false

namespace LambdaMoo.Database

open Popcount

theorem count_stage {m k c : ℕ} {ds : List ℕ} {i a b : BitVec 64} (h : i.toNat = pack m ds)
    (hl : ds.length = 2*k) (hd : ∀ d ∈ ds, d ≤ c) (hc : c < 2^m) (hc2 : 2*c < 2^(2*m))
    (hk : 2*m*k ≤ 64) (hb : b.toNat = lows m k) (ha : a.toNat = 2^m*lows m k) :
    (((i &&& a) >>> m)+(i &&& b)).toNat = pack (2*m) (pairs ds) := by
  have hp : pack (2*m) (pairs ds) < 2^64 := by
    have hp := pack_lt fun d hd' => lt_of_le_of_lt (pairs_le ds hd d hd') hc2
    rw [pairs_length k ds hl] at hp
    exact lt_of_lt_of_le hp (Nat.pow_le_pow_right (by decide) hk)
  rw [BitVec.toNat_add, BitVec.toNat_ushiftRight, BitVec.toNat_and, BitVec.toNat_and, h, hb, ha,
    step hl fun d hd' => lt_of_le_of_lt (hd d hd') hc, Nat.mod_eq_of_lt hp]

theorem countSetBits_low (x : BitVec 64) : countSetBits x = countSetBits (x &&& 0xFFFFFFFF) := by
  simp only [countSetBits, BitVec.and_assoc]
  rfl

theorem countSetBits_eq (x : BitVec 64) :
    countSetBits x = Nat.count (fun k => x.getLsbD k = true) 32 := by
  have h0 : (x &&& 0xFFFFFFFF).toNat = pack 1 (bits x.toNat 32) := by
    rw [BitVec.toNat_and, pack_bits]
    exact Nat.and_two_pow_sub_one_eq_mod _ 32
  have l0 := bits_length x.toNat 32
  have b0 := bits_le x.toNat 32
  have l1 := pairs_length 16 _ l0
  have b1 := pairs_le _ b0
  have l2 := pairs_length 8 _ l1
  have b2 := pairs_le _ b1
  have l3 := pairs_length 4 _ l2
  have b3 := pairs_le _ b2
  have l4 := pairs_length 2 _ l3
  have b4 := pairs_le _ b3
  have l5 := pairs_length 1 _ l4
  have h1 := count_stage (k := 16) h0 l0 b0 (by decide) (by decide) (by decide)
    (b := 0x55555555) (by decide) (a := 0xAAAAAAAA) (by decide)
  have h2 := count_stage (k := 8) h1 l1 b1 (by decide) (by decide) (by decide)
    (b := 0x33333333) (by decide) (a := 0xCCCCCCCC) (by decide)
  have h3 := count_stage (k := 4) h2 l2 b2 (by decide) (by decide) (by decide)
    (b := 0x0F0F0F0F) (by decide) (a := 0xF0F0F0F0) (by decide)
  have h4 := count_stage (k := 2) h3 l3 b3 (by decide) (by decide) (by decide)
    (b := 0x00FF00FF) (by decide) (a := 0xFF00FF00) (by decide)
  have h5 := count_stage (k := 1) h4 l4 b4 (by decide) (by decide) (by decide)
    (b := 0x0000FFFF) (by decide) (a := 0xFFFF0000) (by decide)
  obtain ⟨d, hd⟩ := List.length_eq_one_iff.mp l5
  have hsum : d = (bits x.toNat 32).sum := by
    rw [← pairs_sum, ← pairs_sum (pairs _), ← pairs_sum (pairs (pairs _)),
      ← pairs_sum (pairs (pairs (pairs _))), ← pairs_sum (pairs (pairs (pairs (pairs _)))), hd]
    simp
  rw [countSetBits_low]
  refine h5.trans ?_
  rw [hd, pack, pack, hsum, sum_bits]
  rfl

namespace WaifMap

theorem at_signed (map : WaifMap) (j : ℕ) :
    map.at' j = ((map.at' j).setWidth 32).signExtend 64 := by
  rw [at']
  by_cases h : j < waifMapsz
  · simp only [h, dif_pos]
    exact map.signed ⟨j, h⟩
  · simp [h]

/-- The bits of a word above the lowest 32 are copies of bit 31. -/
theorem at_high (map : WaifMap) (j : ℕ) {k : ℕ} (hk : 32 ≤ k) (hk' : k < 64) :
    (map.at' j).getLsbD k = (map.at' j).getLsbD 31 := by
  rw [at_signed, BitVec.getLsbD_signExtend, BitVec.getLsbD_signExtend, BitVec.msb_eq_getLsbD_last]
  simp [hk', show ¬k < 32 by omega]

theorem mapBit_getLsbD (i : ℕ) {k : ℕ} (hk : k < 64) :
    (mapBit i).getLsbD k = decide (k = i%32 ∨ (i%32 = 31 ∧ 32 ≤ k)) := by
  have hi : i%32 < 32 := Nat.mod_lt _ (by decide)
  rw [mapBit, BitVec.getLsbD_signExtend, BitVec.msb_eq_getLsbD_last]
  simp only [hk, decide_true, Bool.true_and, BitVec.getLsbD_shiftLeft, BitVec.getLsbD_one]
  by_cases h : k < 32
  · simp only [h, if_true]
    grind
  · simp only [h, if_false]
    grind

theorem propMapped_eq (map : WaifMap) (i : ℕ) :
    map.propMapped i = (map.at' (i/32)).getLsbD (i%32) := by
  have hi : i%32 < 32 := Nat.mod_lt _ (by decide)
  rw [Bool.eq_iff_iff, propMapped, bne_iff_ne]
  constructor
  · intro h
    by_contra hn
    apply h
    apply BitVec.eq_of_getLsbD_eq
    intro k hk
    rw [BitVec.getLsbD_and, mapBit_getLsbD i hk, show BitVec.getLsbD 0 k = false by simp]
    by_cases hr : k = i%32
    · rw [hr, Bool.eq_false_iff.mpr hn, Bool.false_and]
    · by_cases hb : i%32 = 31 ∧ 32 ≤ k
      · rw [at_high map _ hb.2 hk, ← hb.1, Bool.eq_false_iff.mpr hn, Bool.false_and]
      · simp [hr, hb]
  · intro h hz
    have hb := congrArg (BitVec.getLsbD · (i%32)) hz
    simp only [BitVec.getLsbD_and, h, mapBit_getLsbD i (show i%32 < 64 by omega)] at hb
    simp at hb

theorem propMapped_word (map : WaifMap) (j : ℕ) {k : ℕ} (hk : k < 32) :
    map.propMapped (32*j+k) = (map.at' j).getLsbD k := by
  rw [propMapped_eq, show (32*j+k)/32 = j by omega, show (32*j+k)%32 = k by omega]

/-- The number of properties before one that the map has. -/
def rank (map : WaifMap) (i : ℕ) : ℕ := Nat.count (fun k => map.propMapped k = true) i

theorem rank_word (map : WaifMap) (j : ℕ) {r : ℕ} (hr : r ≤ 32) :
    map.rank (32*j+r) = map.rank (32*j)+Nat.count (fun k => (map.at' j).getLsbD k = true) r := by
  rw [rank, rank, Nat.count_add]
  congr 1
  apply Packed.count_congr
  intro k hk
  rw [propMapped_word map j (show k < 32 by omega)]

theorem full_words (map : WaifMap) (n : ℕ) :
    ((List.range n).map fun j => countSetBits (map.at' j)).sum = map.rank (32*n) := by
  induction n with
  | zero => simp [rank]
  | succ n ih =>
    rw [List.range_succ, List.map_append, List.sum_append, ih, show 32*(n+1) = 32*n+32 by ring,
      rank_word map n le_rfl, ← countSetBits_eq]
    simp

theorem count_eq (map : WaifMap) : map.count = map.rank nMappableProps := full_words map waifMapsz

theorem mask_getLsbD {r k : ℕ} (hr : r ≤ 32) :
    ((0xFFFFFFFF : BitVec 64) >>> (32-r)).getLsbD k = decide (k < r) := by
  rw [BitVec.getLsbD_ushiftRight, show (0xFFFFFFFF : BitVec 64) = BitVec.ofNat 64 (2^32-1) from rfl,
    BitVec.getLsbD_ofNat, Nat.testBit_two_pow_sub_one]
  grind

theorem partial_word (map : WaifMap) (j : ℕ) {r : ℕ} (hr : r ≤ 32) :
    countSetBits (map.at' j &&& (0xFFFFFFFF : BitVec 64) >>> (32-r))
      = Nat.count (fun k => (map.at' j).getLsbD k = true) r := by
  rw [countSetBits_eq]
  simp only [BitVec.getLsbD_and, mask_getLsbD hr]
  obtain ⟨d, hd⟩ := Nat.exists_eq_add_of_le hr
  rw [hd, Nat.count_add]
  have h0 : Nat.count (fun k => ((map.at' j).getLsbD (r+k) && decide (r+k < r)) = true) d = 0 :=
    Nat.count_iff_forall_not.mpr fun k _ => by simp
  rw [h0, Nat.add_zero]
  apply Packed.count_congr
  intro k hk
  simp [hk]

/-- The number of properties before one that have a place. -/
def place (map : WaifMap) (i : ℕ) : ℕ := Nat.count (fun k => map.stored k = true) i

theorem stored_of_lt (map : WaifMap) {i : ℕ} (hi : i < nMappableProps) :
    map.stored i = map.propMapped i := by
  simp [stored, Nat.not_le.mpr hi]

theorem stored_of_ge (map : WaifMap) {i : ℕ} (hi : nMappableProps ≤ i) : map.stored i = true := by
  simp [stored, hi]

theorem place_of_le (map : WaifMap) {i : ℕ} (hi : i ≤ nMappableProps) :
    map.place i = map.rank i :=
  Packed.count_congr fun k hk => by rw [stored_of_lt map (show k < nMappableProps by omega)]

theorem place_of_ge (map : WaifMap) {i : ℕ} (hi : nMappableProps ≤ i) :
    map.place i = map.rank nMappableProps+(i-nMappableProps) := by
  rw [← place_of_le map le_rfl]
  exact Packed.count_of_ge (fun k hk => stored_of_ge map hk) hi

theorem propvalOffset_eq (map : WaifMap) (i : ℕ) :
    propvalOffset map i = if map.stored i then some (map.place i) else none := by
  rw [propvalOffset]
  by_cases hi : nMappableProps ≤ i
  · rw [if_pos hi, if_pos (stored_of_ge map hi), place_of_ge map hi, count_eq, Nat.add_comm]
  · rw [if_neg hi, stored_of_lt map (Nat.not_le.mp hi)]
    cases hm : map.propMapped i with
    | false => rfl
    | true =>
      have hr : i%32 ≤ 32 := le_of_lt (Nat.mod_lt _ (by decide))
      have hrank : map.rank i = map.rank (32*(i/32))
          +Nat.count (fun k => (map.at' (i/32)).getLsbD k = true) (i%32) := by
        rw [← rank_word map _ hr, Nat.div_add_mod]
      rw [place_of_le map (le_of_lt (Nat.not_le.mp hi)), hrank, full_words]
      by_cases h0 : i%32 = 0
      · simp [h0]
      · simp only [h0, Bool.not_true, Bool.false_eq_true, if_false, if_true, ne_eq, not_false_eq_true,
          partial_word map _ hr]

theorem propvalCount_eq (map : WaifMap) (length : ℕ) :
    propvalCount length map = map.place (max length nMappableProps) := by
  rw [place_of_ge map (le_max_right _ _), propvalCount, count_eq]
  omega

theorem at_mapProp (map : WaifMap) {i : ℕ} (hi : i < nMappableProps) (j : ℕ) :
    (map.mapProp i).at' j = if j = i/32 then map.at' j ||| mapBit i else map.at' j := by
  have h3 : i/32 < waifMapsz := Nat.div_lt_of_lt_mul (by rw [Nat.mul_comm]; exact hi)
  by_cases h : j < waifMapsz
  · simp [at', mapProp, h]
  · rw [if_neg (by omega)]
    simp [at', h]

theorem propMapped_mapProp (map : WaifMap) {i : ℕ} (hi : i < nMappableProps) (k : ℕ) :
    (map.mapProp i).propMapped k = (map.propMapped k || decide (k = i)) := by
  have hk : k%32 < 32 := Nat.mod_lt _ (by decide)
  rw [propMapped_eq, propMapped_eq, at_mapProp map hi]
  by_cases h : k/32 = i/32
  · rw [if_pos h, BitVec.getLsbD_or, mapBit_getLsbD i (show k%32 < 64 by omega)]
    congr 1
    rw [decide_eq_decide]
    omega
  · rw [if_neg h, show decide (k = i) = false from decide_eq_false fun he => h (he ▸ rfl),
      Bool.or_false]

theorem stored_mapProp (map : WaifMap) {i : ℕ} (hi : i < nMappableProps) (k : ℕ) :
    (map.mapProp i).stored k = true ↔ map.stored k = true ∨ k = i := by
  simp [stored, propMapped_mapProp map hi, or_assoc]

end WaifMap

theorem copyNext_drop {xs : List Var} {n : ℕ} (hn : n < xs.length) (new : List Var)
    (result : Option ℕ) :
    copyNext ⟨xs.drop n, new, result⟩ = .ok ⟨xs.drop (n+1), new++[xs.get ⟨n, hn⟩], result⟩ := by
  rw [copyNext, List.drop_eq_getElem_cons hn]
  rfl

theorem copyTail (k s : ℕ) (c : Copied) (hk : k ≤ c.old.length) :
    (List.range' s k).foldlM (fun c _ => copyNext c) c
      = .ok { c with old := c.old.drop k, new := c.new++c.old.take k } := by
  induction k generalizing s c with
  | zero => simp; rfl
  | succ k ih =>
    obtain ⟨old, new, result⟩ := c
    cases old with
    | nil => simp at hk
    | cons v old =>
      rw [List.range'_succ, List.foldlM_cons]
      show (List.range' (s+1) k).foldlM (fun c _ => copyNext c) ⟨old, new++[v], result⟩ = _
      rw [ih (s+1) _ (Nat.succ_le_succ_iff.mp hk)]
      simp

section Alloc
variable (map : WaifMap) {idx : ℕ} (hidx : idx < nMappableProps)
  (hm : map.propMapped idx = false) (xs : List Var)

/-- The values copied when the loop has gone through the first `n` properties. -/
def copied (idx n : ℕ) : Copied :=
  ⟨xs.drop (map.rank n),
    if idx < n then (xs.take (map.rank n)).insertIdx (map.rank idx) .clear
    else xs.take (map.rank n),
    if idx < n then some (map.rank idx) else none⟩

include hidx hm

theorem copyMapped_copied {n : ℕ} (hx : map.rank (n+1) ≤ xs.length) :
    copyMapped (map.mapProp idx) idx (copied map xs idx n) n = .ok (copied map xs idx (n+1)) := by
  have hs : map.rank (n+1) = map.rank n+if map.propMapped n then 1 else 0 := Nat.count_succ _ n
  rw [copyMapped, map.propMapped_mapProp hidx]
  by_cases he : n = idx
  · subst he
    rw [hm] at hs
    have hl : (xs.take (map.rank n)).length = map.rank n := by
      rw [List.length_take]
      omega
    have hi : (xs.take (map.rank n)).insertIdx (map.rank n) Var.clear
        = xs.take (map.rank n)++[.clear] := by
      have := List.insertIdx_length_self (l := xs.take (map.rank n)) (x := Var.clear)
      rwa [hl] at this
    simp [copied, hm, hs, hi, hl]
  · cases hp : map.propMapped n with
    | false =>
      rw [hp] at hs
      have hlt : idx < n+1 ↔ idx < n := by omega
      simp [copied, hs, he, hlt]
    | true =>
      rw [hp] at hs
      have hlt : idx < n+1 ↔ idx < n := by omega
      have hn : map.rank n < xs.length := by
        simp only [if_true] at hs
        omega
      simp only [Bool.true_or, if_true, he, if_false, copied]
      rw [copyNext_drop hn, hs, if_pos rfl, List.take_succ_eq_append_getElem hn]
      simp only [hlt]
      by_cases hi : idx < n
      · have hle : map.rank idx ≤ (xs.take (map.rank n)).length := by
          have : map.rank idx ≤ map.rank n := Nat.count_monotone _ (le_of_lt hi)
          rw [List.length_take]
          omega
        simp only [hi, if_true, Packed.insertIdx_append _ _ hle]
        rfl
      · simp only [hi, if_false]
        rfl

theorem copyMapped_range {n : ℕ} (hx : map.rank n ≤ xs.length) :
    (List.range n).foldlM (copyMapped (map.mapProp idx) idx) ⟨xs, [], none⟩
      = .ok (copied map xs idx n) := by
  induction n with
  | zero =>
    simp [copied, WaifMap.rank]
    rfl
  | succ n ih =>
    have hle : map.rank n ≤ map.rank (n+1) := Nat.count_monotone _ (Nat.le_succ n)
    rw [List.range_succ, List.foldlM_append, ih (by omega)]
    show (copyMapped (map.mapProp idx) idx (copied map xs idx n) n >>= pure) = _
    rw [copyMapped_copied map hidx hm xs hx]
    rfl

/-- The place of a property that gets one. -/
theorem allocPropvalOffset_eq (length : ℕ) (w : Waif)
    (hw : w.map = map) (hx : w.propvals = xs) (hl : xs.length = propvalCount length map) :
    allocPropvalOffset length w idx = .ok (map.place idx,
      { w with map := map.mapProp idx, propvals := xs.insertIdx (map.place idx) .clear }) := by
  have hplace : map.place idx = map.rank idx := map.place_of_le (le_of_lt hidx)
  have hlen : xs.length = map.rank nMappableProps+(length-nMappableProps) := by
    rw [hl, propvalCount, map.count_eq, Nat.add_comm]
  have hle : map.rank idx ≤ (xs.take (map.rank nMappableProps)).length := by
    have : map.rank idx ≤ map.rank nMappableProps := Nat.count_monotone _ (le_of_lt hidx)
    rw [List.length_take]
    omega
  have hnew : (xs.take (map.rank nMappableProps)).insertIdx (map.rank idx) Var.clear
      ++(xs.drop (map.rank nMappableProps)).take (length-nMappableProps)
      = xs.insertIdx (map.place idx) .clear := by
    have hall : (xs.drop (map.rank nMappableProps)).take (length-nMappableProps)
        = xs.drop (map.rank nMappableProps) := by
      apply List.take_of_length_le
      rw [List.length_drop]
      omega
    rw [hall, ← Packed.insertIdx_append _ _ hle, hplace, List.take_append_drop]
  have hcnt : (xs.insertIdx (map.place idx) Var.clear).length
      = propvalCount length (map.mapProp idx) := by
    rw [List.length_insertIdx_of_le_length (by rw [List.length_take] at hle; omega), hl,
      map.propvalCount_eq, WaifMap.propvalCount_eq, WaifMap.place, WaifMap.place,
      Packed.count_insert (map.stored_mapProp hidx), if_pos (lt_max_of_lt_right hidx)]
    rw [map.stored_of_lt hidx, hm]
    decide
  rw [allocPropvalOffset, hw, hm, hx]
  simp only [Bool.false_eq_true, if_false]
  rw [copyMapped_range map hidx hm xs (n := nMappableProps) (by omega)]
  show ((List.range' nMappableProps (length-nMappableProps)).foldlM (fun c _ => copyNext c)
    (copied map xs idx nMappableProps) >>= _) = _
  rw [copyTail _ _ _ (by simp only [copied, List.length_drop]; omega)]
  simp only [copied, hidx, if_true]
  show (if _ then _ else _) = _
  rw [hnew, if_pos hcnt, hplace]
  rfl

end Alloc

end LambdaMoo.Database
