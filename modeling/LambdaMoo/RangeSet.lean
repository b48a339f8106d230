import LambdaMoo.Literal

/-!
# Assignment to a range

`base[from..to] = value` on lists and on strings, as the interpreter checks and
performs it. A string is checked by its bytes and changed by its characters, and
the characters behind the range are counted from the end of those before it.
-/

set_option autoImplicit false

namespace LambdaMoo.Execute
open LambdaMoo.Utf LambdaMoo.Parse LambdaMoo.Decimal

/-- `rangeset_check`; the lengths of lists and strings are within `int`. -/
def rangesetCheck (last : ℕ) (lo hi : ℤ) : Bool := lo > last+1 || hi < 0

/-- A loop that copies `count` elements behind the first `start`. -/
def copyElements (base : List Var) (start count : ℤ) : Result (List Var) :=
  if count ≤ 0 then return []
  else if 0 ≤ start ∧ start+count ≤ base.length then
    return (base.drop start.toNat).take count.toNat
  else .error (.undefined "element of a list")

def listrangeset (base : List Var) (lo hi : ℤ) (value : List Var) : Result (List Var) := do
  let lenleft := if lo > 1 then lo-1 else 0
  let lenright := if base.length > hi then base.length-hi else 0
  let left ← copyElements base 0 lenleft
  let right ← copyElements base hi lenright
  return left ++ value ++ right

/-- The bytes that `skip_utf` passes, in a string with the NUL at its end. A count below zero
never comes to zero. -/
def skipUtf : ℕ → Str → ℤ → Result ℕ
  | 0, _, _ => .error .outOfFuel
  | fuel+1, s, i =>
    if s.head? = some 0 ∨ i = 0 then return 0
    else match getUtf s with
      | none => .error (.undefined "read past a string")
      | some (_, p) => do return s.length-p.length+(← skipUtf fuel p (i-1))

def strrangeset (base : Str) (lo hi : ℤ) (value : Str) : Result Str := do
  let charsleft := if lo > 1 then lo-1 else 0
  let lenleft ← skipUtf (base.length+1) (base ++ [0]) charsleft
  if ¬ FitsInt (hi-lo+1) then .error (.undefined "integer overflow")
  else
    let indright := lenleft+(← skipUtf (base.length+1) ((base ++ [0]).drop lenleft) (hi-lo+1))
    let lenright := base.length-indright
    return base.take lenleft ++ value ++ (base.drop indright).take lenright

/-- `EOP_RANGESET`. The inner error is the one that is pushed. -/
def rangeset (base lo hi value : Var) : Result (Except Err Var) :=
  match base, lo, hi, value with
  | .list base, .int lo, .int hi, .list value =>
    if rangesetCheck base.length (toInt32 lo) (toInt32 hi) then return .error .range
    else do return .ok (.list (← listrangeset base (toInt32 lo) (toInt32 hi) value))
  | .str base, .int lo, .int hi, .str value =>
    if rangesetCheck base.length (toInt32 lo) (toInt32 hi) then return .error .range
    else do return .ok (.str (← strrangeset base (toInt32 lo) (toInt32 hi) value))
  | _, _, _, _ => return .error .type

/-- What an assignment to a range is for, on any kind of sequence. -/
def splice {α : Type} (base : List α) (lo hi : ℤ) (value : List α) : Except Err (List α) :=
  if lo > base.length+1 ∨ hi < 0 then .error .range
  else .ok (base.take (lo-1).toNat ++ value ++ base.drop hi.toNat)

/-- A well-formed string by its characters. -/
structure Text where
  chars : List Char
  noNul : '\x00' ∉ chars

def Text.str (t : Text) : Str := encode t.chars

theorem copyElements_eq {base : List Var} {start count : ℤ} (h : 0 ≤ start)
    (hc : 0 ≤ count) (hle : start+count ≤ base.length) :
    copyElements base start count = .ok ((base.drop start.toNat).take count.toNat) := by
  rw [copyElements]
  by_cases h0 : count ≤ 0
  · have hz : count.toNat = 0 := by omega
    rw [if_pos h0, hz, List.take_zero]
    rfl
  · rw [if_neg h0, if_pos ⟨h, hle⟩]
    rfl

theorem left_eq (lo : ℤ) : (if lo > 1 then lo-1 else 0) = ((lo-1).toNat : ℤ) := by
  by_cases h : lo > 1
  · rw [if_pos h]
    omega
  · rw [if_neg h]
    omega

theorem listrangeset_eq (base : List Var) {lo hi : ℤ} (value : List Var)
    (hlo : lo ≤ base.length+1) (hhi : 0 ≤ hi) :
    listrangeset base lo hi value =
      .ok (base.take (lo-1).toNat ++ value ++ base.drop hi.toNat) := by
  have hleft : copyElements base 0 ((lo-1).toNat : ℤ) = .ok (base.take (lo-1).toNat) := by
    rw [copyElements_eq (by omega) (by omega) (by omega)]
    rfl
  have hright : copyElements base hi (if base.length > hi then base.length-hi else 0) =
      .ok (base.drop hi.toNat) := by
    by_cases h : base.length > hi
    · have hlen : (base.length-hi).toNat = (base.drop hi.toNat).length := by
        rw [List.length_drop]
        omega
      rw [if_pos h, copyElements_eq hhi (by omega) (by omega), hlen, List.take_length]
    · rw [if_neg h, copyElements, if_pos le_rfl, List.drop_eq_nil_of_le (by omega)]
      rfl
  rw [listrangeset, left_eq]
  simp only [hleft, hright]
  rfl

theorem encode_cons (c : Char) (cs : List Char) :
    encode (c::cs) = String.utf8EncodeChar c ++ encode cs := rfl

theorem encode_singleton (c : Char) : encode [c] = String.utf8EncodeChar c := by
  rw [encode_cons]
  exact List.append_nil _

theorem encode_append (cs ds : List Char) : encode (cs ++ ds) = encode cs ++ encode ds := by
  simp [encode]

theorem encode_head {c : Char} (hc : c ≠ '\x00') (s : Str) :
    (String.utf8EncodeChar c ++ s).head? ≠ some 0 := by
  intro h
  cases hb : String.utf8EncodeChar c with
  | nil => exact String.utf8EncodeChar_ne_nil hb
  | cons b bs =>
    rw [hb] at h
    have hmem : charByte '\x00' ∈ String.utf8EncodeChar c := by
      have h0 : b = 0 := by simpa using h
      rw [hb, h0]
      exact List.mem_cons_self
    exact hc (utf8_mem (by decide) hmem)

/-- The characters that a count stands for. -/
def counted (cs : List Char) (i : ℤ) : ℕ := if i < 0 then cs.length else i.toNat

theorem skipUtf_encode {cs : List Char} (hcs : '\x00' ∉ cs) (i : ℤ) {fuel : ℕ}
    (hf : cs.length < fuel) :
    skipUtf fuel (encode cs ++ [0]) i = .ok (encode (cs.take (counted cs i))).length := by
  induction cs generalizing i fuel with
  | nil =>
    cases fuel with
    | zero => simp at hf
    | succ fuel => simp [skipUtf, encode, pure, Except.pure]
  | cons c cs ih =>
    cases fuel with
    | zero => simp at hf
    | succ fuel =>
      have hc : c ≠ '\x00' := fun h => hcs (by simp [h])
      have hcs' : '\x00' ∉ cs := fun h => hcs (List.mem_cons_of_mem c h)
      have hfuel : cs.length < fuel := by simpa using hf
      rw [skipUtf]
      by_cases h0 : i = 0
      · subst h0
        rw [if_pos (.inr rfl)]
        simp [counted, encode, pure, Except.pure]
      · have htake : (c::cs).take (counted (c::cs) i) = c::cs.take (counted cs (i-1)) := by
          rw [counted, counted]
          by_cases hneg : i < 0
          · rw [if_pos hneg, if_pos (by omega), List.take_length, List.take_length]
          · rw [if_neg hneg, if_neg (by omega), show i.toNat = (i-1).toNat+1 by omega,
              List.take_succ_cons]
        rw [encode_cons, List.append_assoc, if_neg (not_or.mpr ⟨encode_head hc _, h0⟩),
          getUtf_char]
        simp only [ih hcs' (i-1) hfuel]
        rw [htake, encode_cons]
        simp [bind, Except.bind, pure, Except.pure]

theorem counted_nat (cs : List Char) (k : ℕ) : counted cs (k : ℤ) = k := by
  rw [counted, if_neg (by omega), Int.toNat_natCast]

theorem take_encode (cs : List Char) (a : ℕ) :
    (encode cs).take (encode (cs.take a)).length = encode (cs.take a) := by
  have h : encode cs = encode (cs.take a) ++ encode (cs.drop a) := by
    rw [← encode_append, List.take_append_drop]
  rw [h, List.take_left]

theorem drop_encode (cs : List Char) (a : ℕ) (s : Str) :
    (encode cs ++ s).drop (encode (cs.take a)).length = encode (cs.drop a) ++ s := by
  have h : encode cs = encode (cs.take a) ++ encode (cs.drop a) := by
    rw [← encode_append, List.take_append_drop]
  rw [h, List.append_assoc, List.drop_left]

theorem strrangeset_eq (base : Text) {lo hi : ℤ} (h : FitsInt (hi-lo+1)) (value : Str) :
    strrangeset base.str lo hi value =
      .ok (encode (base.chars.take (lo-1).toNat) ++ value ++
        encode (base.chars.drop ((lo-1).toNat+
          counted (base.chars.drop (lo-1).toNat) (hi-lo+1)))) := by
  obtain ⟨cs, hcs⟩ := base
  have hleft : skipUtf ((encode cs).length+1) (encode cs ++ [0]) ((lo-1).toNat : ℤ) =
      .ok (encode (cs.take (lo-1).toNat)).length := by
    rw [skipUtf_encode hcs _ (Nat.lt_succ_of_le (length_le_encode cs)), counted_nat]
  rw [strrangeset, left_eq]
  simp only [Text.str, hleft, h, not_true_eq_false, if_false]
  generalize (lo-1).toNat = a
  generalize hi-lo+1 = i
  have hdrop : '\x00' ∉ cs.drop a := fun hmem => hcs (List.mem_of_mem_drop hmem)
  have hfuel : (cs.drop a).length < (encode cs).length+1 := by
    have := length_le_encode cs
    rw [List.length_drop]
    omega
  have hmid := skipUtf_encode hdrop i hfuel
  generalize counted (cs.drop a) i = k at hmid
  have hind : (encode (cs.take a)).length+(encode ((cs.drop a).take k)).length =
      (encode (cs.take (a+k))).length := by
    rw [List.take_add, encode_append, List.length_append]
  have hlast := drop_encode cs (a+k) []
  rw [List.append_nil, List.append_nil] at hlast
  have hall : (encode (cs.drop (a+k))).take ((encode cs).length-(encode (cs.take (a+k))).length) =
      encode (cs.drop (a+k)) := List.take_of_length_le (by rw [← hlast, List.length_drop])
  simp only [bind, Except.bind, drop_encode, hmid, hind, take_encode, hlast, hall]
  rfl

/-- Where the string of some characters is changed as the list of them is. -/
def SameRange (cs : List Char) (lo hi : ℤ) : Prop :=
  hi < 0 ∨ lo > (encode cs).length+1 ∨ 1 ≤ lo ∧ lo ≤ cs.length+1 ∧ lo-1 ≤ hi ∨
    lo ≤ 0 ∧ cs.length ≤ hi ∧ hi-lo+1 < 2^31

/-- A list is changed as the numbers say that `int`s hold of the operands. -/
theorem rangeset_truncated (base value : List Var) (lo hi : Num) :
    rangeset (.list base) (.int lo) (.int hi) (.list value) =
      .ok ((splice base (toInt32 lo) (toInt32 hi) value).map .list) := by
  rw [rangeset, splice]
  by_cases h : toInt32 lo > base.length+1 ∨ toInt32 hi < 0
  · rw [if_pos h, if_pos (by simpa [rangesetCheck] using h)]
    rfl
  · rw [if_neg h, if_neg (by simpa [rangesetCheck] using h),
      listrangeset_eq base value (by omega) (by omega)]
    rfl

theorem rangeset_list (base value : List Var) {lo hi : Num} (hlo : FitsInt lo.toInt)
    (hhi : FitsInt hi.toInt) :
    rangeset (.list base) (.int lo) (.int hi) (.list value) =
      .ok ((splice base lo.toInt hi.toInt value).map .list) := by
  rw [rangeset_truncated, toInt32_eq hlo, toInt32_eq hhi]

/-- The characters before the range, and how many of the others the string code passes. -/
theorem rangeset_str (base value : Text) {lo hi : Num} (hlo : FitsInt lo.toInt)
    (hhi : FitsInt hi.toInt) (h : ¬ (lo.toInt > base.str.length+1 ∨ hi.toInt < 0)) :
    rangeset (.str base.str) (.int lo) (.int hi) (.str value.str) =
      if FitsInt (hi.toInt-lo.toInt+1) then
        .ok (.ok (.str (encode (base.chars.take (lo.toInt-1).toNat ++ value.chars ++
          base.chars.drop ((lo.toInt-1).toNat+
            counted (base.chars.drop (lo.toInt-1).toNat) (hi.toInt-lo.toInt+1))))))
      else .error (.undefined "integer overflow") := by
  rw [rangeset, toInt32_eq hlo, toInt32_eq hhi, if_neg (by simpa [rangesetCheck] using h)]
  by_cases hfit : FitsInt (hi.toInt-lo.toInt+1)
  · rw [if_pos hfit, strrangeset_eq base hfit, encode_append, encode_append]
    rfl
  · have hskip := skipUtf_encode base.noNul ((lo.toInt-1).toNat : ℤ)
      (Nat.lt_succ_of_le (length_le_encode base.chars))
    rw [if_neg hfit, strrangeset, left_eq]
    simp only [Text.str, Nat.succ_eq_add_one] at hskip ⊢
    simp only [hskip, hfit, not_false_eq_true, if_true]
    rfl

theorem encode_inj {cs ds : List Char} (h : encode cs = encode ds) : cs = ds := by
  induction cs generalizing ds with
  | nil =>
    have hlen := length_le_encode ds
    rw [← h] at hlen
    exact (List.length_eq_zero_iff.mp (Nat.le_zero.mp hlen)).symm
  | cons c cs ih =>
    cases ds with
    | nil =>
      have hlen := length_le_encode (c::cs)
      rw [h] at hlen
      simp [encode] at hlen
    | cons d ds =>
      obtain ⟨rfl, htail⟩ := utf8_cancel h
      rw [ih htail]

theorem drop_eq_iff {α : Type} (l : List α) (x y : ℕ) :
    l.drop x = l.drop y ↔ l.length-x = l.length-y := by
  constructor
  · intro h
    have := congrArg List.length h
    simpa using this
  · intro h
    by_cases hx : l.length ≤ x
    · rw [List.drop_eq_nil_of_le hx, List.drop_eq_nil_of_le (by omega)]
    · rw [show x = y by omega]

theorem rangeset_str_iff (base value : Text) {lo hi : Num} (hlo : FitsInt lo.toInt)
    (hhi : FitsInt hi.toInt) :
    rangeset (.str base.str) (.int lo) (.int hi) (.str value.str) =
        .ok ((splice base.chars lo.toInt hi.toInt value.chars).map fun cs => .str (encode cs)) ↔
      SameRange base.chars lo.toInt hi.toInt := by
  have hlen : base.chars.length ≤ base.str.length := length_le_encode base.chars
  have hsame : SameRange base.chars lo.toInt hi.toInt ↔ hi.toInt < 0 ∨
      lo.toInt > base.str.length+1 ∨
      1 ≤ lo.toInt ∧ lo.toInt ≤ base.chars.length+1 ∧ lo.toInt-1 ≤ hi.toInt ∨
      lo.toInt ≤ 0 ∧ base.chars.length ≤ hi.toInt ∧ hi.toInt-lo.toInt+1 < 2^31 := Iff.rfl
  by_cases h : lo.toInt > base.str.length+1 ∨ hi.toInt < 0
  · apply iff_of_true
    · rw [rangeset, toInt32_eq hlo, toInt32_eq hhi, if_pos (by simpa [rangesetCheck] using h),
        splice, if_pos (by omega)]
      rfl
    · rw [hsame]
      omega
  · rw [rangeset_str base value hlo hhi h, hsame, splice]
    by_cases hfit : FitsInt (hi.toInt-lo.toInt+1)
    · rw [if_pos hfit]
      by_cases hchars : lo.toInt > base.chars.length+1 ∨ hi.toInt < 0
      · rw [if_pos hchars]
        apply iff_of_false
        · intro heq
          cases heq
        · omega
      · rw [if_neg hchars]
        simp only [Except.map, Except.ok.injEq, Var.str.injEq]
        rw [(show Function.Injective encode from fun _ _ => encode_inj).eq_iff,
          List.append_cancel_left_eq, drop_eq_iff, counted, List.length_drop]
        rw [FitsInt] at hfit
        split <;> omega
    · rw [if_neg hfit]
      apply iff_of_false
      · intro heq
        cases heq
      · rw [FitsInt] at hfit hlo hhi
        omega

/-- Lists are always changed as `splice` says. Strings are where the range is not inverted and
begins within the characters, or covers them all from an index below 1. -/
theorem rangeset_splice_iff {lo hi : Num} (hlo : FitsInt lo.toInt) (hhi : FitsInt hi.toInt) :
    (∀ base value : List Var, rangeset (.list base) (.int lo) (.int hi) (.list value) =
      .ok ((splice base lo.toInt hi.toInt value).map .list)) ∧
    ∀ base value : Text,
      (rangeset (.str base.str) (.int lo) (.int hi) (.str value.str) =
        .ok ((splice base.chars lo.toInt hi.toInt value.chars).map fun cs => .str (encode cs)) ↔
      SameRange base.chars lo.toInt hi.toInt) :=
  ⟨fun base value => rangeset_list base value hlo hhi,
    fun base value => rangeset_str_iff base value hlo hhi⟩

/-- `"abé"[2..3] = "x"`. -/
theorem rangeset_splice_middle :
    rangeset (.str (encode ['a', 'b', 'é'])) (.int 2) (.int 3) (.str (encode ['x'])) =
      .ok (.ok (.str (encode ['a', 'x']))) := by
  have hlo : FitsInt (2 : Num).toInt := by decide
  have hhi : FitsInt (3 : Num).toInt := by decide
  exact ((rangeset_splice_iff hlo hhi).2 ⟨['a', 'b', 'é'], by decide⟩ ⟨['x'], by decide⟩).mpr
    (.inr (.inr (.inl (by decide))))

/-- `"abc"[3..0] = "x"` is `"abx"`, and the same assignment to a list of three repeats its
elements behind the value. -/
theorem rangeset_inverted :
    ¬ ∀ (base value : Text) (lo hi : Num), FitsInt lo.toInt → FitsInt hi.toInt →
      rangeset (.str base.str) (.int lo) (.int hi) (.str value.str) =
        .ok ((splice base.chars lo.toInt hi.toInt value.chars).map fun cs => .str (encode cs)) := by
  intro h
  have habc := h ⟨['a', 'b', 'c'], by decide⟩ ⟨['x'], by decide⟩ 3 0 (by decide) (by decide)
  rw [rangeset_str_iff _ _ (by decide) (by decide)] at habc
  revert habc
  unfold SameRange
  decide

end LambdaMoo.Execute
