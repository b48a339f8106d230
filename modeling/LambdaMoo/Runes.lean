import LambdaMoo.Utf

/-!
# Writing runes

`putUtf` appends a rune to a buffer. On a Unicode scalar value it writes the
UTF-8 encoding of it, and the client decoder reads that encoding back as one
rune, whatever bytes follow.
-/

set_option autoImplicit false

namespace LambdaMoo.Utf

/-- `none` is the return of `-1`, with the buffer as it was. -/
def putUtf (vv : ℤ) : Option (List UInt8) :=
  let v := (vv % 2^32).toNat
  if v ≤ 0x7f then some [UInt8.ofNat v]
  else if v ≤ 0x7ff then
    some [UInt8.ofNat (0xc0 ||| v >>> 6), UInt8.ofNat (0x80 ||| v &&& 0x3f)]
  else if v ≤ 0xffff then
    if 0xd800 ≤ v ∧ v ≤ 0xdfff then none
    else
      some [UInt8.ofNat (0xe0 ||| v >>> 12), UInt8.ofNat (0x80 ||| v >>> 6 &&& 0x3f),
        UInt8.ofNat (0x80 ||| v &&& 0x3f)]
  else if v ≤ 0x10ffff then
    some [UInt8.ofNat (0xf0 ||| v >>> 18), UInt8.ofNat (0x80 ||| v >>> 12 &&& 0x3f),
      UInt8.ofNat (0x80 ||| v >>> 6 &&& 0x3f), UInt8.ofNat (0x80 ||| v &&& 0x3f)]
  else none

def streamAddUtf (s : List UInt8) (c : ℤ) : List UInt8 := s ++ (putUtf c).getD []

/-- The code point of a character, as the decoders return it. -/
def rune (c : Char) : ℤ := (c.val.toNat : ℤ)

theorem or_high (k : ℕ) {i x : ℕ} (h : x < 2^i) : k <<< i ||| x = k*2^i+x := by
  rw [← Nat.shiftLeft_add_eq_or_of_lt h, Nat.shiftLeft_eq]

theorem cont_eq (x : ℕ) : 0x80 ||| x &&& 0x3f = x%0x40+0x80 := by
  rw [show (0x3f : ℕ) = 2^6-1 from rfl, Nat.and_two_pow_sub_one_eq_mod,
    show (0x80 : ℕ) = 2 <<< 6 from rfl, or_high 2 (Nat.mod_lt x (by decide))]
  omega

theorem scalar (c : Char) :
    c.val.toNat < 0xd800 ∨ 0xdfff < c.val.toNat ∧ c.val.toNat < 0x110000 := c.valid

theorem putUtf_char (c : Char) : putUtf (rune c) = some (String.utf8EncodeChar c) := by
  have hs := scalar c
  have hv : (rune c % 2^32).toNat = c.val.toNat := by
    rw [rune]
    omega
  unfold putUtf String.utf8EncodeChar
  simp only [hv, cont_eq, Nat.shiftRight_eq_div_pow, Nat.reducePow]
  generalize c.val.toNat = v at hs
  split
  · rfl
  · split
    · rw [show (0xc0 : ℕ) = 6 <<< 5 from rfl, or_high 6 (by omega)]
      congr 3
      omega
    · split
      · rw [if_neg (by omega), show (0xe0 : ℕ) = 14 <<< 4 from rfl, or_high 14 (by omega)]
        congr 3
        omega
      · rw [if_pos (by omega), show (0xf0 : ℕ) = 30 <<< 3 from rfl, or_high 30 (by omega)]
        congr 3
        omega

theorem int_ofNat {n : ℕ} (h : n < 256) : int (UInt8.ofNat n) = (n : ℤ) := by
  rw [int, UInt8.toNat_ofNat', Nat.mod_eq_of_lt h]

theorem getUtfCall_cons (b : UInt8) (bs : List UInt8) (e : ℕ) :
    getUtfCall (-1) ⟨b::bs,e⟩ = fromLead (int b) ⟨bs,e⟩ := by
  rw [getUtfCall, if_neg (by simp), if_neg]
  · rfl
  · exact int_ne b

theorem callConts_cont (n x : ℕ) (v : ℤ) (bs : List UInt8) (e : ℕ) :
    callConts (n+1) v ⟨UInt8.ofNat (x%0x40+0x80)::bs,e⟩ =
      callConts n (v*64+(x%0x40 : ℕ)) ⟨bs,e⟩ := by
  have hx : x%0x40+0x80 < 0xc0 := by omega
  have hb : int (UInt8.ofNat (x%0x40+0x80)) = ((x%0x40+0x80 : ℕ) : ℤ) := int_ofNat (by omega)
  rw [callConts_take]
  · rw [hb, Nat.cast_add, Nat.cast_ofNat, Int.add_sub_cancel]
  · rw [UInt8.le_iff_toNat_le, UInt8.toNat_ofNat', Nat.mod_eq_of_lt (by omega)]
    simp only [UInt8.reduceToNat]
    omega

/-- A sequence of `n` continuation bytes after a lead byte that announces them. -/
theorem fromLead_seq {l n : ℕ} {v w : ℤ} {bs conts : List UInt8} {e : ℕ}
    (hl : lead l = .seq n v) (hc : callConts n v ⟨conts,e⟩ = (some w, -1, ⟨bs,e⟩))
    (hw : ranged n w = w) : fromLead l ⟨conts,e⟩ = (w, -1, ⟨bs,e⟩) := by
  simp [fromLead, hl, hc, hw]

theorem getUtfCall_ascii {b : UInt8} (hb : b.toNat < 0x80) (bs : List UInt8) (e : ℕ) :
    getUtfCall (-1) ⟨b::bs,e⟩ = (int b, -1, ⟨bs,e⟩) := by
  have hl : lead (int b) = .rune (int b) := if_pos (by rw [int]; omega)
  rw [getUtfCall_cons, fromLead, hl]

theorem lead_two {a : ℕ} (h : a < 0x20) : lead ((a+0xc0 : ℕ) : ℤ) = .seq 1 (a : ℕ) := by
  unfold lead
  rw [if_neg (by omega), if_neg (by omega), if_pos (by omega)]
  congr 1
  omega

theorem lead_three {a : ℕ} (h : a < 0x10) : lead ((a+0xe0 : ℕ) : ℤ) = .seq 2 (a : ℕ) := by
  unfold lead
  rw [if_neg (by omega), if_neg (by omega), if_neg (by omega), if_pos (by omega)]
  congr 1
  omega

theorem lead_four {a : ℕ} (h : a < 0x08) : lead ((a+0xf0 : ℕ) : ℤ) = .seq 3 (a : ℕ) := by
  unfold lead
  rw [if_neg (by omega), if_neg (by omega), if_neg (by omega), if_neg (by omega),
    if_pos (by omega)]
  congr 1
  omega

/-- The first byte of a character tells how many it has. -/
theorem clearanceUtf_char (c : Char) {l : UInt8} {tl : List UInt8} (h : String.utf8EncodeChar c = l::tl) :
    clearanceUtf l = tl.length+1 := by
  have hs := scalar c
  rw [clearanceUtf_eq, need]
  unfold String.utf8EncodeChar at h
  simp only at h
  generalize c.val.toNat = v at hs h
  split at h
  · obtain ⟨rfl, rfl⟩ := List.cons.inj h
    rw [int_ofNat (by omega), lead, if_pos (by omega)]
    rfl
  · split at h
    · obtain ⟨rfl, rfl⟩ := List.cons.inj h
      rw [int_ofNat (by omega), lead_two (by omega)]
      rfl
    · split at h
      · obtain ⟨rfl, rfl⟩ := List.cons.inj h
        rw [int_ofNat (by omega), lead_three (by omega)]
        rfl
      · obtain ⟨rfl, rfl⟩ := List.cons.inj h
        rw [int_ofNat (by omega), lead_four (by omega)]
        rfl

theorem getUtfCall_char (c : Char) (bs : List UInt8) (e : ℕ) :
    getUtfCall (-1) ⟨String.utf8EncodeChar c ++ bs,e⟩ = (rune c, -1, ⟨bs,e⟩) := by
  have hs := scalar c
  unfold String.utf8EncodeChar
  simp only [rune]
  generalize c.val.toNat = v at hs
  split
  · have hv : (UInt8.ofNat v).toNat = v := by
      rw [UInt8.toNat_ofNat', Nat.mod_eq_of_lt (by omega)]
    rw [List.singleton_append, getUtfCall_ascii (by omega), int, hv]
  · split
    · rw [List.cons_append, List.cons_append, List.nil_append, getUtfCall_cons,
        int_ofNat (by omega)]
      apply fromLead_seq (n := 1) (v := ((v/64%0x20 : ℕ) : ℤ))
      · exact lead_two (by omega)
      · rw [callConts_cont, callConts]
        congr 2
        omega
      · exact if_neg (by omega)
    · split
      · rw [List.cons_append, List.cons_append, List.cons_append, List.nil_append,
          getUtfCall_cons, int_ofNat (by omega)]
        apply fromLead_seq (n := 2) (v := ((v/4096%0x10 : ℕ) : ℤ))
        · exact lead_three (by omega)
        · rw [callConts_cont, callConts_cont, callConts]
          congr 2
          omega
        · exact if_neg (by omega)
      · rw [List.cons_append, List.cons_append, List.cons_append, List.cons_append,
          List.nil_append, getUtfCall_cons, int_ofNat (by omega)]
        apply fromLead_seq (n := 3) (v := ((v/262144%0x08 : ℕ) : ℤ))
        · exact lead_four (by omega)
        · rw [callConts_cont, callConts_cont, callConts_cont, callConts]
          congr 2
          omega
        · exact if_neg (by omega)

theorem getConts_cont (n x : ℕ) (v : ℤ) (bs : List UInt8) :
    getConts (n+1) v (UInt8.ofNat (x%0x40+0x80)::bs) = getConts n (v*64+(x%0x40 : ℕ)) bs := by
  have hx : (UInt8.ofNat (x%0x40+0x80)).toNat = x%0x40+0x80 := by
    rw [UInt8.toNat_ofNat', Nat.mod_eq_of_lt (by omega)]
  have hc : IsCont (UInt8.ofNat (x%0x40+0x80)) := by
    rw [isCont_iff, hx]
    omega
  rw [getConts, if_neg ((sub_gt_iff _).not.mpr (not_not.mpr hc)), sub_int _ hc, int, hx, Nat.cast_add,
    Nat.cast_ofNat, Int.add_sub_cancel]

theorem getUtf_seq {l : UInt8} {n : ℕ} {v w : ℤ} {bs conts : List UInt8}
    (hl : lead (int l) = .seq n v) (hc : getConts n v conts = some (some w, bs))
    (hw : ranged n w = w) : getUtf (l::conts) = some (w, bs) := by
  simp [getUtf, hl, hc, hw]

/-- The string decoder reads back a scalar value too. -/
theorem getUtf_char (c : Char) (bs : List UInt8) :
    getUtf (String.utf8EncodeChar c ++ bs) = some (rune c, bs) := by
  have hs := scalar c
  unfold String.utf8EncodeChar
  simp only [rune]
  generalize c.val.toNat = v at hs
  split
  · have hl : lead (int (UInt8.ofNat v)) = .rune v := by
      rw [int_ofNat (by omega)]
      exact if_pos (by omega)
    rw [List.singleton_append, getUtf, hl]
  · split
    · rw [List.cons_append, List.cons_append, List.nil_append]
      apply getUtf_seq (n := 1) (v := ((v/64%0x20 : ℕ) : ℤ))
      · rw [int_ofNat (by omega)]
        exact lead_two (by omega)
      · rw [getConts_cont, getConts]
        congr 3
        omega
      · exact if_neg (by omega)
    · split
      · rw [List.cons_append, List.cons_append, List.cons_append, List.nil_append]
        apply getUtf_seq (n := 2) (v := ((v/4096%0x10 : ℕ) : ℤ))
        · rw [int_ofNat (by omega)]
          exact lead_three (by omega)
        · rw [getConts_cont, getConts_cont, getConts]
          congr 3
          omega
        · exact if_neg (by omega)
      · rw [List.cons_append, List.cons_append, List.cons_append, List.cons_append,
          List.nil_append]
        apply getUtf_seq (n := 3) (v := ((v/262144%0x08 : ℕ) : ℤ))
        · rw [int_ofNat (by omega)]
          exact lead_four (by omega)
        · rw [getConts_cont, getConts_cont, getConts_cont, getConts]
          congr 3
          omega
        · exact if_neg (by omega)

theorem utf8_cancel {c d : Char} {a b : List UInt8}
    (h : String.utf8EncodeChar c ++ a = String.utf8EncodeChar d ++ b) : c = d ∧ a = b := by
  have hg := getUtf_char c a
  rw [h, getUtf_char] at hg
  obtain ⟨hr, rfl⟩ := Prod.mk.inj (Option.some.inj hg)
  refine ⟨?_, rfl⟩
  apply Char.ext
  apply UInt32.toNat_inj.mp
  rw [rune, rune] at hr
  omega

end LambdaMoo.Utf
