import Mathlib.Data.List.TakeWhile
import LambdaMoo.Folding

/-!
# Indexing of lists and strings

`base[i]`, `base[from..to]` and `base[i] = value` as the interpreter checks
and performs them. A string goes through them as the list of its characters,
each a string of one character.
-/

set_option autoImplicit false

namespace LambdaMoo.Execute
open LambdaMoo.Utf LambdaMoo.Strings LambdaMoo.Parse LambdaMoo.Decimal

/-- The string that `strncpy` leaves in a buffer of `n` bytes. -/
def strncpy (s : Str) (n : ℕ) : Str := (s.take n).takeWhile (· ≠ 0)

def strget (s : Str) (i : Num) : Result Str := do
  let ind ← skipUtf (s.length+1) (s ++ [0]) (toInt32 (i-1))
  match (s ++ [0]).drop ind with
  | [] => .error (.undefined "read past the end of a string")
  | c::rest => return strncpy (c::rest) (clearanceUtf c)

def substr (s : Str) (lower upper : ℤ) : Result Str :=
  if lower > upper then return []
  else if ¬FitsInt (upper+1-lower) then .error (.undefined "integer overflow")
  else do
    let lowerInd ← skipUtf (s.length+1) (s ++ [0]) (lower-1)
    let count ← skipUtf (s.length+1) ((s ++ [0]).drop lowerInd) (upper+1-lower)
    return (s.drop lowerInd).take count

def sublist (list : List Var) (lower upper : ℤ) : Result (List Var) :=
  if lower > upper then return []
  else if ¬FitsInt (upper-lower+1) then .error (.undefined "integer overflow")
  else copyElements list (lower-1) (upper-lower+1)

def listset (list : List Var) (value : Var) (pos : ℤ) : Result (List Var) :=
  if 1 ≤ pos ∧ pos ≤ list.length then return list.set (pos-1).toNat value
  else .error (.undefined "element of a list")

def bfLength (v : Var) : Result (Except Err Var) :=
  match v with
  | .list l => return .ok (.int (BitVec.ofNat 64 l.length))
  | .str s => do return .ok (.int (BitVec.ofNat 64 (← strlenUtf (s.length+1) (s ++ [0]))))
  | _ => return .error .type

section Operations
/-! What indexing a waif does is the business of a verb of its class. -/
variable (dict : WaifRef → List Var → Result (Except Err Var))

/-- `OP_REF`. The inner error is the one that is pushed. -/
def opRef (list index : Var) : Result (Except Err Var) :=
  match list, index with
  | .waif w, index => dict w [index]
  | .list l, .int i =>
    if i.toInt ≤ 0 ∨ i.toInt > l.length then return .error .range
    else match l[(i.toInt-1).toNat]? with
      | some v => return .ok v
      | none => .error (.undefined "element of a list")
  | .str s, .int i => do
    if i.toInt ≤ 0 ∨ i.toInt > (← strlenUtf (s.length+1) (s ++ [0])) then return .error .range
    else return .ok (.str (← strget s i))
  | _, _ => return .error .type

/-- `OP_INDEXSET`. -/
def opIndexset (list index value : Var) : Result (Except Err Var) :=
  match list, index, value with
  | .waif w, index, value => dict w [index, value]
  | .list l, .int i, value =>
    if i.toInt < 1 ∨ i.toInt > l.length then return .error .range
    else do return .ok (.list (← listset l value (toInt32 i)))
  | .str s, .int i, .str value => do
    if i.toInt < 1 ∨ i.toInt > (← strlenUtf (s.length+1) (s ++ [0])) then return .error .range
    else if (← strlenUtf (value.length+1) (value ++ [0])) ≠ 1 then return .error .invarg
    else return .ok (.str (← strrangeset s (toInt32 i) (toInt32 i) value))
  | _, _, _ => return .error .type

end Operations

def rangeOutside (len : ℕ) (lo hi : Num) : Bool :=
  lo.toInt ≤ hi.toInt ∧ (lo.toInt ≤ 0 ∨ lo.toInt > len ∨ hi.toInt ≤ 0 ∨ hi.toInt > len)

/-- `OP_RANGE_REF`. -/
def opRangeRef (base lo hi : Var) : Result (Except Err Var) :=
  match base, lo, hi with
  | .list l, .int lo, .int hi =>
    if rangeOutside l.length lo hi then return .error .range
    else do return .ok (.list (← sublist l (toInt32 lo) (toInt32 hi)))
  | .str s, .int lo, .int hi => do
    if rangeOutside (← strlenUtf (s.length+1) (s ++ [0])) lo hi then return .error .range
    else return .ok (.str (← substr s (toInt32 lo) (toInt32 hi)))
  | _, _, _ => return .error .type

/-! ## On any list -/

section Lists
variable {α : Type}

def elementAt (l : List α) (i : ℤ) : Except Err α :=
  match if 1 ≤ i then l[(i-1).toNat]? else none with
  | some a => .ok a
  | none => .error .range

def slice (l : List α) (lo hi : ℤ) : Except Err (List α) :=
  if lo > hi then .ok []
  else if 1 ≤ lo ∧ hi ≤ l.length then .ok ((l.drop (lo-1).toNat).take (hi-lo+1).toNat)
  else .error .range

def replaceAt (l : List α) (i : ℤ) (a : α) : Except Err (List α) :=
  if 1 ≤ i ∧ i ≤ l.length then .ok (l.set (i-1).toNat a) else .error .range

theorem elementAt_outside {l : List α} {i : ℤ} (h : i ≤ 0 ∨ i > l.length) :
    elementAt l i = .error .range := by
  rw [elementAt]
  by_cases h1 : 1 ≤ i
  · rw [if_pos h1, List.getElem?_eq_none (by omega)]
  · rw [if_neg h1]

theorem elementAt_inside {l : List α} {i : ℤ} (h : ¬(i ≤ 0 ∨ i > l.length)) :
    ∃ a, l[(i-1).toNat]? = some a ∧ elementAt l i = .ok a := by
  have hlt : (i-1).toNat < l.length := by omega
  refine ⟨l.get ⟨_, hlt⟩, List.getElem?_eq_getElem hlt, ?_⟩
  rw [elementAt, if_pos (by omega), List.getElem?_eq_getElem hlt]
  rfl

end Lists

/-- The list of the characters of a string. -/
def charVars (cs : List Char) : List Var := cs.map fun c => .str (encode [c])

section Chars
variable {cs : List Char} (hcs : '\x00' ∉ cs)
include hcs

theorem skipUtf_take {k : ℕ} : skipUtf ((encode cs).length+1) (encode cs ++ [0]) (k : ℤ)
    = .ok (encode (cs.take k)).length := by
  rw [skipUtf_encode hcs _ (Nat.lt_succ_of_le (length_le_encode cs)), counted_nat]

theorem strget_encode {i : Num} (hi : FitsInt i.toInt) (h1 : 1 ≤ i.toInt) {c : Char}
    (hc : cs[(i.toInt-1).toNat]? = some c) : strget (encode cs) i = .ok (encode [c]) := by
  obtain ⟨k, hk⟩ : ∃ k : ℕ, i.toInt-1 = k := ⟨(i.toInt-1).toNat, by omega⟩
  have hk32 : toInt32 (i-1) = k := by
    have hsub : (i-1).toInt = i.toInt-1 := by
      rw [BitVec.toInt_sub, show (1 : Num).toInt = 1 from rfl]
      apply Int.bmod_eq_of_le <;> have := hi.1 <;> have := hi.2 <;> norm_num <;> omega
    rw [toInt32_eq (by rw [hsub]; constructor <;> have := hi.1 <;> have := hi.2 <;> omega), hsub, hk]
  rw [hk, Int.toNat_natCast] at hc
  obtain ⟨hlt, hget⟩ := List.getElem?_eq_some_iff.mp hc
  have hd : cs.drop k = c::cs.drop (k+1) := by rw [List.drop_eq_getElem_cons hlt, hget]
  obtain ⟨l, tl, hl, -⟩ := utf8_shape c
  have h0 : 0 ∉ String.utf8EncodeChar c := by
    have hnot : '\x00' ∉ [c] := fun h => hcs (List.mem_of_mem_drop (i := k) (by
      rw [hd, ← List.mem_singleton.mp h]
      exact List.mem_cons_self))
    have := encode_ne_zero hnot
    rwa [encode_singleton] at this
  rw [strget, hk32, skipUtf_take hcs]
  simp only [bind, Except.bind, drop_encode, hd, encode_cons, hl, List.cons_append]
  rw [strncpy, clearanceUtf_char c hl, List.take_succ_cons, List.append_assoc, List.take_left]
  rw [hl] at h0
  have hw : (l::tl).takeWhile (· ≠ 0) = l::tl :=
    List.takeWhile_eq_self_iff.mpr fun b hb => decide_eq_true fun e => h0 (e ▸ hb)
  rw [hw]
  simp [encode, pure, Except.pure]

theorem substr_encode {lo hi : ℤ} (hle : lo ≤ hi) (h1 : 1 ≤ lo) (hf : FitsInt (hi+1-lo)) :
    substr (encode cs) lo hi = .ok (encode ((cs.drop (lo-1).toNat).take (hi-lo+1).toNat)) := by
  obtain ⟨k, hk⟩ : ∃ k : ℕ, lo-1 = k := ⟨(lo-1).toNat, by omega⟩
  obtain ⟨n, hn⟩ : ∃ n : ℕ, hi+1-lo = n := ⟨(hi+1-lo).toNat, by omega⟩
  have hdrop : '\x00' ∉ cs.drop k := fun h => hcs (List.mem_of_mem_drop h)
  have hlen : (cs.drop k).length < (encode cs).length+1 := by
    have := length_le_encode cs
    rw [List.length_drop]
    omega
  have hcount := skipUtf_encode hdrop (n : ℤ) hlen
  rw [counted_nat] at hcount
  rw [substr, if_neg (by omega), if_neg (not_not.mpr hf), hn, hk, skipUtf_take hcs,
    show hi-lo+1 = n by omega, Int.toNat_natCast, Int.toNat_natCast]
  have hrest := drop_encode cs k []
  rw [List.append_nil, List.append_nil] at hrest
  simp only [bind, Except.bind, drop_encode, hcount, hrest, take_encode]
  rfl

end Chars

/-! ## Strings as lists of characters -/

section Ops
variable (dict : WaifRef → List Var → Result (Except Err Var))

theorem opRef_list (l : List Var) (i : Num) :
    opRef dict (.list l) (.int i) = .ok (elementAt l i.toInt) := by
  rw [opRef]
  by_cases h : i.toInt ≤ 0 ∨ i.toInt > l.length
  · rw [if_pos h, elementAt_outside h]
    rfl
  · obtain ⟨a, hget, he⟩ := elementAt_inside h
    rw [if_neg h, hget, he]
    rfl

theorem opRef_str (t : Text) {i : Num} (hi : FitsInt i.toInt) : opRef dict (.str t.str) (.int i)
    = .ok ((elementAt t.chars i.toInt).map fun c => .str (encode [c])) := by
  have hlen : strlenUtf (t.str.length+1) (t.str ++ [0]) = .ok t.chars.length :=
    strlenUtf_encode t.noNul (Nat.lt_succ_self _)
  rw [opRef, hlen]
  simp only [bind, Except.bind]
  by_cases h : i.toInt ≤ 0 ∨ i.toInt > t.chars.length
  · rw [if_pos h, elementAt_outside h]
    rfl
  · obtain ⟨c, hget, he⟩ := elementAt_inside h
    rw [if_neg h, he, show strget t.str i = _ from strget_encode t.noNul hi (by omega) hget]
    rfl

theorem elementAt_map {α β : Type} (f : α → β) (l : List α) (i : ℤ) :
    elementAt (l.map f) i = (elementAt l i).map f := by
  by_cases h : i ≤ 0 ∨ i > l.length
  · rw [elementAt_outside h, elementAt_outside (by simpa using h)]
    rfl
  · obtain ⟨a, hget, he⟩ := elementAt_inside h
    obtain ⟨b, hget', he'⟩ := elementAt_inside (l := l.map f) (by simpa using h)
    rw [List.getElem?_map, hget] at hget'
    rw [he, he', ← Option.some.inj hget']
    rfl

theorem slice_map {α β : Type} (f : α → β) (l : List α) (lo hi : ℤ) :
    slice (l.map f) lo hi = (slice l lo hi).map (List.map f) := by
  rw [slice, slice, List.length_map]
  split
  · rfl
  · split
    · rw [← List.map_drop, ← List.map_take]
      rfl
    · rfl

theorem replaceAt_map {α β : Type} (f : α → β) (l : List α) (i : ℤ) (a : α) :
    replaceAt (l.map f) i (f a) = (replaceAt l i a).map (List.map f) := by
  rw [replaceAt, replaceAt, List.length_map]
  split
  · rw [← List.map_set]
    rfl
  · rfl

theorem rangeOutside_iff (len : ℕ) (lo hi : Num) : rangeOutside len lo hi = true ↔
    lo.toInt ≤ hi.toInt ∧ ¬(1 ≤ lo.toInt ∧ hi.toInt ≤ len) := by
  rw [rangeOutside, decide_eq_true_iff]
  omega

theorem slice_outside {α : Type} {l : List α} {lo hi : Num}
    (h : rangeOutside l.length lo hi = true) : slice l lo.toInt hi.toInt = .error .range := by
  rw [rangeOutside_iff] at h
  rw [slice, if_neg (by omega), if_neg h.2]

theorem opRangeRef_list (l : List Var) {lo hi : Num} (hlo : FitsInt lo.toInt)
    (hhi : FitsInt hi.toInt) : opRangeRef (.list l) (.int lo) (.int hi)
      = .ok ((slice l lo.toInt hi.toInt).map .list) := by
  rw [opRangeRef]
  by_cases h : rangeOutside l.length lo hi = true
  · rw [if_pos h, slice_outside h]
    rfl
  · rw [if_neg h, toInt32_eq hlo, toInt32_eq hhi, sublist, slice]
    rw [rangeOutside_iff] at h
    by_cases hgt : lo.toInt > hi.toInt
    · rw [if_pos hgt, if_pos hgt]
      rfl
    · have hin : 1 ≤ lo.toInt ∧ hi.toInt ≤ l.length := by omega
      obtain ⟨h1, h2⟩ := hlo
      obtain ⟨h3, h4⟩ := hhi
      rw [if_neg hgt, if_neg hgt, if_pos hin, if_neg (not_not.mpr ⟨by omega, by omega⟩),
        copyElements_eq (by omega) (by omega) (by omega)]
      rfl

theorem opRangeRef_str (t : Text) {lo hi : Num} (hlo : FitsInt lo.toInt) (hhi : FitsInt hi.toInt) :
    opRangeRef (.str t.str) (.int lo) (.int hi)
      = .ok ((slice t.chars lo.toInt hi.toInt).map fun cs => .str (encode cs)) := by
  have hlen : strlenUtf (t.str.length+1) (t.str ++ [0]) = .ok t.chars.length :=
    strlenUtf_encode t.noNul (Nat.lt_succ_self _)
  rw [opRangeRef, hlen]
  simp only [bind, Except.bind]
  by_cases h : rangeOutside t.chars.length lo hi = true
  · rw [if_pos h, slice_outside h]
    rfl
  · rw [if_neg h, toInt32_eq hlo, toInt32_eq hhi, slice]
    rw [rangeOutside_iff] at h
    by_cases hgt : lo.toInt > hi.toInt
    · rw [substr, if_pos hgt, if_pos hgt]
      rfl
    · have hin : 1 ≤ lo.toInt ∧ hi.toInt ≤ t.chars.length := by omega
      obtain ⟨h1, h2⟩ := hlo
      obtain ⟨h3, h4⟩ := hhi
      rw [if_neg hgt, if_pos hin, show substr t.str lo.toInt hi.toInt = _ from
        substr_encode t.noNul (by omega) hin.1 ⟨by omega, by omega⟩]
      rfl

theorem opIndexset_list (l : List Var) {i : Num} (hi : FitsInt i.toInt) (v : Var) :
    opIndexset dict (.list l) (.int i) v = .ok ((replaceAt l i.toInt v).map .list) := by
  rw [opIndexset, replaceAt, toInt32_eq hi, listset]
  by_cases h : i.toInt < 1 ∨ i.toInt > l.length
  · rw [if_pos h, if_neg (by omega)]
    rfl
  · rw [if_neg h, if_pos (by omega), if_pos (by omega)]
    rfl

theorem opIndexset_str (t v : Text) {i : Num} (hi : FitsInt i.toInt) :
    opIndexset dict (.str t.str) (.int i) (.str v.str) =
      if i.toInt < 1 ∨ i.toInt > t.chars.length then .ok (.error .range)
      else if v.chars.length ≠ 1 then .ok (.error .invarg)
      else .ok (.ok (.str (encode (t.chars.take (i.toInt-1).toNat ++ v.chars ++
        t.chars.drop i.toInt.toNat)))) := by
  have hlen : strlenUtf (t.str.length+1) (t.str ++ [0]) = .ok t.chars.length :=
    strlenUtf_encode t.noNul (Nat.lt_succ_self _)
  have hval : strlenUtf (v.str.length+1) (v.str ++ [0]) = .ok v.chars.length :=
    strlenUtf_encode v.noNul (Nat.lt_succ_self _)
  rw [opIndexset, hlen, hval]
  simp only [bind, Except.bind]
  by_cases h : i.toInt < 1 ∨ i.toInt > t.chars.length
  · rw [if_pos h, if_pos h]
    rfl
  · rw [if_neg h, if_neg h]
    by_cases h1 : v.chars.length ≠ 1
    · rw [if_pos h1, if_pos h1]
      rfl
    · have hone : i.toInt-i.toInt+1 = 1 := by omega
      have hdrop : (i.toInt-1).toNat+counted (t.chars.drop (i.toInt-1).toNat) 1 = i.toInt.toNat := by
        rw [show (1 : ℤ) = (1 : ℕ) from rfl, counted_nat]
        omega
      rw [if_neg h1, if_neg h1, toInt32_eq hi, strrangeset_eq t (by rw [hone]; decide), hone, hdrop,
        encode_append, encode_append]
      rfl

/-- Assigning a string of one character sets an element of the list of characters. -/
theorem opIndexset_char (t : Text) {c : Char} (hc : c ≠ '\x00') {i : Num} (hi : FitsInt i.toInt) :
    opIndexset dict (.str t.str) (.int i) (.str (encode [c]))
      = .ok ((replaceAt t.chars i.toInt c).map fun cs => .str (encode cs)) := by
  have h := opIndexset_str dict t ⟨[c], fun h => hc (List.mem_singleton.mp h).symm⟩ hi
  rw [show opIndexset dict (.str t.str) (.int i) (.str (encode [c])) = _ from h, replaceAt]
  by_cases ho : i.toInt < 1 ∨ i.toInt > t.chars.length
  · rw [if_pos ho, if_neg (by omega)]
    rfl
  · have hk : (i.toInt-1).toNat < t.chars.length := by omega
    rw [if_neg ho, if_neg (by simp), if_pos (by omega),
      List.set_eq_take_append_cons_drop, if_pos hk, show i.toInt.toNat = (i.toInt-1).toNat+1 by omega,
      List.append_assoc]
    rfl

end Ops

/-- A string is indexed as the list of its characters is, and by the same checks. -/
theorem string_indexing (dict : WaifRef → List Var → Result (Except Err Var)) (t : Text) :
    bfLength (.str t.str) = .ok (.ok (.int (BitVec.ofNat 64 t.chars.length))) ∧
    (∀ i : Num, FitsInt i.toInt →
      opRef dict (.list (charVars t.chars)) (.int i)
        = .ok ((elementAt t.chars i.toInt).map fun c => .str (encode [c])) ∧
      opRef dict (.str t.str) (.int i)
        = .ok ((elementAt t.chars i.toInt).map fun c => .str (encode [c]))) ∧
    (∀ lo hi : Num, FitsInt lo.toInt → FitsInt hi.toInt →
      opRangeRef (.list (charVars t.chars)) (.int lo) (.int hi)
        = .ok ((slice t.chars lo.toInt hi.toInt).map fun cs => .list (charVars cs)) ∧
      opRangeRef (.str t.str) (.int lo) (.int hi)
        = .ok ((slice t.chars lo.toInt hi.toInt).map fun cs => .str (encode cs))) ∧
    (∀ (i : Num) (c : Char), FitsInt i.toInt → c ≠ '\x00' →
      opIndexset dict (.list (charVars t.chars)) (.int i) (.str (encode [c]))
        = .ok ((replaceAt t.chars i.toInt c).map fun cs => .list (charVars cs)) ∧
      opIndexset dict (.str t.str) (.int i) (.str (encode [c]))
        = .ok ((replaceAt t.chars i.toInt c).map fun cs => .str (encode cs))) ∧
    ∀ (i : Num) (v : Text), FitsInt i.toInt → v.chars.length ≠ 1 →
      ∃ e, opIndexset dict (.str t.str) (.int i) (.str v.str) = .ok (.error e) := by
  have mapped : ∀ {α β γ : Type} (x : Except Err α) (f : α → β) (g : β → γ),
      (x.map f).map g = x.map fun a => g (f a) := by
    intro α β γ x f g
    cases x <;> rfl
  refine ⟨?_, fun i hi => ⟨?_, opRef_str dict t hi⟩, fun lo hi hlo hhi =>
    ⟨?_, opRangeRef_str t hlo hhi⟩, fun i c hi hc => ⟨?_, opIndexset_char dict t hc hi⟩, ?_⟩
  · rw [bfLength, show strlenUtf (t.str.length+1) (t.str ++ [0]) = _ from
      strlenUtf_encode t.noNul (Nat.lt_succ_self _)]
    rfl
  · rw [opRef_list, charVars, elementAt_map]
  · rw [opRangeRef_list _ hlo hhi, charVars, slice_map, mapped]
    rfl
  · rw [opIndexset_list dict _ hi, charVars, replaceAt_map (fun c => Var.str (encode [c])), mapped]
    rfl
  · intro i v hi hv
    rw [opIndexset_str dict t v hi]
    by_cases h : i.toInt < 1 ∨ i.toInt > t.chars.length
    · exact ⟨.range, if_pos h⟩
    · exact ⟨.invarg, by rw [if_neg h, if_pos hv]⟩

/-- Waifs none of whose classes has verbs for an index. -/
def noDict : WaifRef → List Var → Result (Except Err Var) := fun _ _ => .ok (.error .type)

/-- `"aéz"[2]`, `"aéz"[2..3]`, `"aéz"[2] = "x"` and `"aéz"[2] = "xy"`. -/
theorem string_indexing_accented :
    bfLength (.str (encode ['a', 'é', 'z'])) = .ok (.ok (.int 3)) ∧
    opRef noDict (.str (encode ['a', 'é', 'z'])) (.int 2) = .ok (.ok (.str (encode ['é']))) ∧
    opRangeRef (.str (encode ['a', 'é', 'z'])) (.int 2) (.int 3)
      = .ok (.ok (.str (encode ['é', 'z']))) ∧
    opIndexset noDict (.str (encode ['a', 'é', 'z'])) (.int 2) (.str (encode ['x']))
      = .ok (.ok (.str (encode ['a', 'x', 'z']))) ∧
    ∃ e, opIndexset noDict (.str (encode ['a', 'é', 'z'])) (.int 2) (.str (encode ['x', 'y']))
      = .ok (.error e) := by
  have h2 : FitsInt (2 : Num).toInt := by decide
  have h3 : FitsInt (3 : Num).toInt := by decide
  obtain ⟨hlen, href, hrange, hset, hbad⟩ := string_indexing noDict ⟨['a', 'é', 'z'], by decide⟩
  exact ⟨hlen, (href 2 h2).2, (hrange 2 3 h2 h3).2, (hset 2 'x' h2 (by decide)).2,
    hbad 2 ⟨['x', 'y'], by decide⟩ h2 (by decide)⟩

end LambdaMoo.Execute
