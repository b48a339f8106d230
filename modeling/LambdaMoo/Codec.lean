import LambdaMoo.RangeSet

/-!
# The string codec

What `get_utf` returns for the bytes it consumes is the rune that `put_utf`
writes as these bytes, or else the invalid rune. A string is its bytes with the
NUL at the end, and nothing behind the NUL is read.
-/

set_option autoImplicit false

namespace LambdaMoo.Utf
open LambdaMoo.Execute LambdaMoo.Parse LambdaMoo.Decimal

/-- `strlen_utf`, of a string with the NUL at its end. -/
def strlenUtf : ℕ → Str → Result ℕ
  | 0, _ => .error .outOfFuel
  | fuel+1, s =>
    match getUtf s with
    | none => .error (.undefined "read past a string")
    | some (v, p) => if v = 0 then .ok 0 else do return 1+(← strlenUtf fuel p)

/-- Successive calls of `put_utf`. -/
def putAll : List ℤ → Option (List UInt8)
  | [] => some []
  | v::vs => do return (← putUtf v) ++ (← putAll vs)

/-- Successive calls of `get_utf`, until one returns the terminator. -/
def getAll (s : List UInt8) : Option (List ℤ) := (runUtf s.length s).map (·.map Decoded.rune)

theorem put_one {m : ℕ} (h : m ≤ 0x7f) : putUtf m = some [UInt8.ofNat m] := by
  have hv : ((m:ℤ) % 2^32).toNat = m := by omega
  simp only [putUtf, hv]
  exact if_pos h

theorem put_two {m : ℕ} (h1 : 0x7f < m) (h2 : m ≤ 0x7ff) :
    putUtf m = some [UInt8.ofNat (m/64+0xc0), UInt8.ofNat (m%64+0x80)] := by
  have hv : ((m:ℤ) % 2^32).toNat = m := by omega
  simp only [putUtf, hv, cont_eq, Nat.shiftRight_eq_div_pow, Nat.reducePow]
  rw [if_neg (by omega), if_pos h2, show (0xc0:ℕ) = 6 <<< 5 from rfl, or_high 6 (by omega)]
  congr 3
  omega

theorem put_three {m : ℕ} (h1 : 0x7ff < m) (h2 : m ≤ 0xffff) (h3 : ¬(0xd800 ≤ m ∧ m ≤ 0xdfff)) :
    putUtf m = some [UInt8.ofNat (m/4096+0xe0), UInt8.ofNat (m/64%64+0x80),
      UInt8.ofNat (m%64+0x80)] := by
  have hv : ((m:ℤ) % 2^32).toNat = m := by omega
  simp only [putUtf, hv, cont_eq, Nat.shiftRight_eq_div_pow, Nat.reducePow]
  rw [if_neg (by omega), if_neg (by omega), if_pos h2, if_neg h3,
    show (0xe0:ℕ) = 14 <<< 4 from rfl, or_high 14 (by omega)]
  congr 3
  omega

theorem put_four {m : ℕ} (h1 : 0xffff < m) (h2 : m ≤ 0x10ffff) :
    putUtf m = some [UInt8.ofNat (m/262144+0xf0), UInt8.ofNat (m/4096%64+0x80),
      UInt8.ofNat (m/64%64+0x80), UInt8.ofNat (m%64+0x80)] := by
  have hv : ((m:ℤ) % 2^32).toNat = m := by omega
  simp only [putUtf, hv, cont_eq, Nat.shiftRight_eq_div_pow, Nat.reducePow]
  rw [if_neg (by omega), if_neg (by omega), if_neg (by omega), if_pos h2,
    show (0xf0:ℕ) = 30 <<< 3 from rfl, or_high 30 (by omega)]
  congr 3
  omega

theorem putUtf_none {w : ℤ} (hw : FitsInt w)
    (h : ¬(0 ≤ w ∧ (w < 0xd800 ∨ 0xdfff < w ∧ w < 0x110000))) : putUtf w = none := by
  obtain ⟨v, hv⟩ : ∃ v, v = (w % 2^32).toNat := ⟨_, rfl⟩
  have hbad : 0xd800 ≤ v ∧ v ≤ 0xdfff ∨ 0x110000 ≤ v := by
    rw [FitsInt] at hw
    omega
  simp only [putUtf, ← hv]
  rw [if_neg (by omega), if_neg (by omega)]
  by_cases hs : v ≤ 0xffff
  · rw [if_pos hs, if_pos (by omega)]
  · rw [if_neg hs, if_neg (by omega)]

theorem exists_rune {w : ℤ} (h : 0 ≤ w ∧ (w < 0xd800 ∨ 0xdfff < w ∧ w < 0x110000)) :
    ∃ c : Char, rune c = w := by
  have hvalid : w.toNat.isValidChar := by
    rw [Nat.isValidChar]
    omega
  have hval : (Char.ofNat w.toNat).val.toNat = w.toNat := by
    rw [Char.ofNat, dif_pos hvalid]
    exact UInt32.toNat_ofNatLT
  exact ⟨Char.ofNat w.toNat, by rw [rune, hval]; omega⟩

/-- Only the scalar values are written. -/
theorem putUtf_some {w : ℤ} (hw : FitsInt w) {bs : List UInt8} (h : putUtf w = some bs) :
    ∃ c : Char, rune c = w ∧ bs = String.utf8EncodeChar c := by
  have hs : 0 ≤ w ∧ (w < 0xd800 ∨ 0xdfff < w ∧ w < 0x110000) := by
    by_contra hc
    rw [putUtf_none hw hc] at h
    cases h
  obtain ⟨c, rfl⟩ := exists_rune hs
  rw [putUtf_char] at h
  exact ⟨c, rfl, (Option.some.inj h).symm⟩

/-- The value of some continuation bytes on top of `v`. -/
def value (v : ℤ) (cs : List UInt8) : ℤ := cs.foldl (fun v c => v*64+(int c-0x80)) v

/-- The bytes that `n` times `GET_CONT` consume; all of them are there if it does not give up. -/
theorem getConts_used (n : ℕ) (v : ℤ) (p : List UInt8) :
    ∃ used o q, p = used ++ q ∧ used.length ≤ n ∧ (∀ c ∈ used, IsCont c) ∧
      getConts n v (p ++ [0]) = some (o, q ++ [0]) ∧
      ∀ w, o = some w → used.length = n ∧ w = value v used := by
  induction n generalizing v p with
  | zero => exact ⟨[], some v, p, rfl, by simp, by simp, rfl, fun w hw => ⟨rfl, (Option.some.inj hw).symm⟩⟩
  | succ n ih =>
    cases p with
    | nil => exact ⟨[], none, [], rfl, by simp, by simp, rfl, by simp⟩
    | cons c p =>
      by_cases hc : IsCont c
      · obtain ⟨used, o, q, rfl, hlen, hused, hget, hval⟩ := ih (v*64+int (c-0x80)) p
        refine ⟨c::used, o, q, rfl, by simpa using hlen, by simpa using ⟨hc, hused⟩, ?_, ?_⟩
        · rw [List.cons_append, getConts, if_neg (by simpa [sub_gt_iff] using hc)]
          exact hget
        · intro w hw
          obtain ⟨hn, rfl⟩ := hval w hw
          exact ⟨by simpa using hn, by rw [sub_int c hc]; rfl⟩
      · refine ⟨[], none, c::p, rfl, by simp, by simp, ?_, by simp⟩
        exact if_pos ((sub_gt_iff c).mpr hc)

theorem ofNat_of_toNat {c : UInt8} {m : ℕ} (h : c.toNat = m) : UInt8.ofNat m = c := by
  rw [← h]
  exact UInt8.ofNat_toNat

/-- The lead byte of a sequence. -/
theorem lead_seq {c : UInt8} {n : ℕ} {v : ℤ} (h : lead (int c) = .seq n v) : ∃ k : ℕ, v = k ∧
    (n = 1 ∧ k < 0x20 ∧ c.toNat = k+0xc0 ∨ n = 2 ∧ k < 0x10 ∧ c.toNat = k+0xe0 ∨
      n = 3 ∧ k < 0x08 ∧ c.toNat = k+0xf0) := by
  have hlt := c.toNat_lt
  unfold lead int at h
  split at h
  · cases h
  · split at h
    · cases h
    · split at h
      · cases h
        exact ⟨c.toNat%0x20, by omega, .inl ⟨rfl, by omega, by omega⟩⟩
      · split at h
        · cases h
          exact ⟨c.toNat%0x10, by omega, .inr (.inl ⟨rfl, by omega, by omega⟩)⟩
        · split at h
          · cases h
            exact ⟨c.toNat%0x08, by omega, .inr (.inr ⟨rfl, by omega, by omega⟩)⟩
          · cases h

theorem value_cons {k : ℕ} {d : UInt8} {ds : List UInt8} (hd : IsCont d) :
    value k (d::ds) = value ((k*64+(d.toNat-0x80) : ℕ)) ds := by
  have := (isCont_iff d).mp hd
  rw [value, List.foldl_cons, int, value]
  congr
  omega

/-- A sequence that passes the range check is the one that is written for its value. -/
theorem put_seq {c : UInt8} {n : ℕ} {v : ℤ} (h : lead (int c) = .seq n v) {used : List UInt8}
    (hlen : used.length = n) (hused : ∀ d ∈ used, IsCont d)
    (hne : ranged n (value v used) ≠ INVALID_RUNE) :
    putUtf (ranged n (value v used)) = some (c::used) := by
  obtain ⟨k, rfl, ⟨rfl, hk, hc⟩|⟨rfl, hk, hc⟩|⟨rfl, hk, hc⟩⟩ := lead_seq h
  · match used, hlen with
    | [x], _ =>
      have hx := hused x (by simp)
      have hb := (isCont_iff x).mp hx
      rw [value_cons hx] at hne ⊢
      simp only [value, List.foldl_nil, ranged] at hne ⊢
      split at hne
      · exact absurd rfl hne
      · rw [if_neg ‹_›, put_two (by omega) (by omega), ofNat_of_toNat (c := c) (by omega),
          ofNat_of_toNat (c := x) (by omega)]
  · match used, hlen with
    | [x, y], _ =>
      have hx := hused x (by simp)
      have hy := hused y (by simp)
      have hbx := (isCont_iff x).mp hx
      have hby := (isCont_iff y).mp hy
      rw [value_cons hx, value_cons hy] at hne ⊢
      simp only [value, List.foldl_nil, ranged] at hne ⊢
      split at hne
      · exact absurd rfl hne
      · rw [if_neg ‹_›, put_three (by omega) (by omega) (by omega),
          ofNat_of_toNat (c := c) (by omega), ofNat_of_toNat (c := x) (by omega),
          ofNat_of_toNat (c := y) (by omega)]
  · match used, hlen with
    | [x, y, z], _ =>
      have hx := hused x (by simp)
      have hy := hused y (by simp)
      have hz := hused z (by simp)
      have hbx := (isCont_iff x).mp hx
      have hby := (isCont_iff y).mp hy
      have hbz := (isCont_iff z).mp hz
      rw [value_cons hx, value_cons hy, value_cons hz] at hne ⊢
      simp only [value, List.foldl_nil, ranged] at hne ⊢
      split at hne
      · exact absurd rfl hne
      · rw [if_neg ‹_›, put_four (by omega) (by omega),
          ofNat_of_toNat (c := c) (by omega), ofNat_of_toNat (c := x) (by omega),
          ofNat_of_toNat (c := y) (by omega), ofNat_of_toNat (c := z) (by omega)]

theorem lead_rune {c : UInt8} {v : ℤ} (h : lead (int c) = .rune v) :
    v = INVALID_RUNE ∨ putUtf v = some [c] := by
  unfold lead at h
  split at h
  · next hc =>
    cases h
    exact .inr (by rw [int, put_one (by rw [int] at hc; omega), UInt8.ofNat_toNat])
  · repeat' split at h
    all_goals cases h
    · exact .inl rfl
    · exact .inl rfl

/-- One call: what it consumes, and what it returns for that. -/
theorem getUtf_used (c : UInt8) (p : List UInt8) :
    ∃ used v q, p = used ++ q ∧ used.length ≤ 3 ∧ (∀ d ∈ used, IsCont d) ∧
      getUtf (c::p ++ [0]) = some (v, q ++ [0]) ∧
      (v = INVALID_RUNE ∨ putUtf v = some (c::used)) := by
  rw [List.cons_append, getUtf]
  cases hl : lead (int c) with
  | rune v => exact ⟨[], v, p, rfl, by simp, by simp, rfl, lead_rune hl⟩
  | seq n v =>
    obtain ⟨used, o, q, hp, hlen, hused, hget, hval⟩ := getConts_used n v p
    have hn : n ≤ 3 := by
      obtain ⟨k, -, h⟩ := lead_seq hl
      omega
    refine ⟨used, o.elim INVALID_RUNE (ranged n), q, hp, by omega, hused, by simp [hget], ?_⟩
    cases o with
    | none => exact .inl rfl
    | some w =>
      obtain ⟨hn, rfl⟩ := hval w rfl
      by_cases hne : ranged n (value v used) = INVALID_RUNE
      · exact .inl hne
      · exact .inr (put_seq hl hn hused hne)

theorem getUtf_iff {used q : List UInt8} {v w : ℤ}
    (h : getUtf (used ++ q) = some (v, q)) (hv : v = INVALID_RUNE ∨ putUtf v = some used)
    (hw : FitsInt w) (hne : w ≠ INVALID_RUNE) : v = w ↔ putUtf w = some used := by
  constructor
  · rintro rfl
    exact hv.resolve_left hne
  · intro hput
    obtain ⟨c, rfl, rfl⟩ := putUtf_some hw hput
    rw [getUtf_char] at h
    exact (Prod.mk.inj (Option.some.inj h)).1.symm

theorem rune_ne_zero {c : Char} (h : c ≠ '\x00') : rune c ≠ 0 := by
  intro h0
  apply h
  apply Char.ext
  apply UInt32.toNat_inj.mp
  rw [rune] at h0
  exact_mod_cast h0

theorem putAll_runes (cs : List Char) : putAll (cs.map rune) = some (encode cs) := by
  induction cs with
  | nil => rfl
  | cons c cs ih =>
    rw [List.map_cons, putAll, putUtf_char, ih]
    rfl

theorem runUtf_runes {cs : List Char} (h : '\x00' ∉ cs) {fuel : ℕ} (hf : cs.length < fuel) :
    (runUtf fuel (encode cs ++ [0])).map (·.map Decoded.rune) = some (cs.map rune) := by
  induction cs generalizing fuel with
  | nil =>
    cases fuel with
    | zero => simp at hf
    | succ fuel => rfl
  | cons c cs ih =>
    cases fuel with
    | zero => simp at hf
    | succ fuel =>
      have hc : c ≠ '\x00' := fun e => h (by simp [e])
      have htail := ih (fun e => h (List.mem_cons_of_mem c e)) (show cs.length < fuel by simpa using hf)
      obtain ⟨t, ht, hmap⟩ := Option.map_eq_some_iff.mp htail
      rw [encode_cons, List.append_assoc, runUtf, getUtf_char]
      simp only [rune_ne_zero hc, if_false, ht, Option.map_some, List.map_cons, hmap]

/-- Both loops end on every string, and the length is the number of runes. -/
theorem strlenUtf_items {bs : List UInt8} (h : 0 ∉ bs) {fuel : ℕ} (hf : bs.length < fuel) :
    ∃ t, runUtf fuel (bs ++ [0]) = some t ∧ strlenUtf fuel (bs ++ [0]) = .ok t.length := by
  induction fuel generalizing bs with
  | zero => omega
  | succ fuel ih =>
    cases bs with
    | nil => exact ⟨[], rfl, rfl⟩
    | cons c p =>
      have hc : c ≠ 0 := fun e => h (by simp [e])
      obtain ⟨used, v, q, rfl, -, -, hget, -⟩ := getUtf_used c p
      have hv : v ≠ 0 := by
        have := getUtf_pos hc hget
        omega
      have hq : 0 ∉ q := fun e => h (by simp [e])
      obtain ⟨t, ht, hlen⟩ := ih hq (by simp at hf; omega)
      refine ⟨⟨v, (q ++ [0]).length-1⟩::t, ?_, ?_⟩
      · rw [runUtf, hget]
        simp only [hv, if_false, ht, Option.map_some]
      · rw [strlenUtf, hget]
        simp only [hv, if_false, hlen, bind, Except.bind, pure, Except.pure, List.length_cons]
        rw [Nat.add_comm]

theorem encode_ne_zero {cs : List Char} (h : '\x00' ∉ cs) : 0 ∉ encode cs := by
  intro h0
  obtain ⟨c, hc, hb⟩ := List.mem_flatMap.mp h0
  have hv := utf8_ascii hb (by decide)
  refine h ?_
  have : c = '\x00' := Char.ext (UInt32.toNat_inj.mp hv.symm)
  rwa [← this]

theorem strlenUtf_encode {cs : List Char} (hcs : '\x00' ∉ cs) {fuel : ℕ}
    (hf : (encode cs).length < fuel) : strlenUtf fuel (encode cs ++ [0]) = .ok cs.length := by
  obtain ⟨t, ht, hl⟩ := strlenUtf_items (encode_ne_zero hcs) hf
  have hr := runUtf_runes hcs (lt_of_le_of_lt (length_le_encode cs) hf)
  rw [ht, Option.map_some, Option.some.injEq] at hr
  have hlen := congrArg List.length hr
  rw [List.length_map, List.length_map] at hlen
  rw [hl, hlen]

theorem skipUtf_ends {bs : List UInt8} (h : 0 ∉ bs) (i : ℤ) {fuel : ℕ} (hf : bs.length < fuel) :
    ∃ n, skipUtf fuel (bs ++ [0]) i = .ok n ∧ n ≤ bs.length := by
  induction fuel generalizing bs i with
  | zero => omega
  | succ fuel ih =>
    cases bs with
    | nil => exact ⟨0, by simp [skipUtf, pure, Except.pure], by simp⟩
    | cons c p =>
      have hc : c ≠ 0 := fun e => h (by simp [e])
      obtain ⟨used, v, q, rfl, -, -, hget, -⟩ := getUtf_used c p
      have hq : 0 ∉ q := fun e => h (by simp [e])
      obtain ⟨n, hn, hle⟩ := ih hq (i-1) (by simp at hf; omega)
      rw [skipUtf]
      by_cases h0 : i = 0
      · exact ⟨0, by rw [if_pos (.inr h0)]; rfl, by simp⟩
      · rw [if_neg (by simp [hc, h0]), hget]
        simp only [hn]
        refine ⟨_, rfl, ?_⟩
        simp
        omega

/-- Scalar values are read back as they were written. A call away from the end takes one to four
bytes and no NUL, and returns the rune that is written as just these bytes, or else the invalid
one. The loops over a string end, and the length is the number of runes. -/
theorem string_codec :
    (∀ cs : List Char, '\x00' ∉ cs → ∃ bs, putAll (cs.map rune) = some bs ∧
      getAll (bs ++ [0]) = some (cs.map rune)) ∧
    (∀ bs : List UInt8, 0 ∉ bs → bs ≠ [] → ∃ used q v, bs = used ++ q ∧
      getUtf (bs ++ [0]) = some (v, q ++ [0]) ∧ 1 ≤ used.length ∧ used.length ≤ 4 ∧
      (v = INVALID_RUNE ∨ putUtf v = some used) ∧
      ∀ w, FitsInt w → w ≠ INVALID_RUNE → (v = w ↔ putUtf w = some used)) ∧
    ∀ bs : List UInt8, 0 ∉ bs → ∃ vs, getAll (bs ++ [0]) = some vs ∧
      strlenUtf (bs.length+1) (bs ++ [0]) = .ok vs.length ∧
      ∀ i, ∃ n, skipUtf (bs.length+1) (bs ++ [0]) i = .ok n ∧ n ≤ bs.length := by
  refine ⟨?_, ?_, ?_⟩
  · intro cs hcs
    refine ⟨encode cs, putAll_runes cs, ?_⟩
    have hlen := length_le_encode cs
    exact runUtf_runes hcs (by rw [List.length_append]; simp; omega)
  · intro bs h0 hne
    obtain ⟨c, p, rfl⟩ := List.exists_cons_of_ne_nil hne
    obtain ⟨used, v, q, rfl, hlen, -, hget, hv⟩ := getUtf_used c p
    refine ⟨c::used, q, v, rfl, hget, by simp, Nat.succ_le_succ hlen, hv, ?_⟩
    intro w hw hne
    exact getUtf_iff (q := q ++ [0]) (by simpa using hget) hv hw hne
  · intro bs h0
    obtain ⟨t, ht, hlen⟩ := strlenUtf_items h0 (Nat.lt_succ_self _)
    refine ⟨t.map Decoded.rune, ?_, ?_, fun i => skipUtf_ends h0 i (Nat.lt_succ_self _)⟩
    · rw [getAll, List.length_append, List.length_singleton, ht]
      rfl
    · rw [List.length_map]
      exact hlen

end LambdaMoo.Utf
