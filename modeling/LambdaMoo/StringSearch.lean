import LambdaMoo.Folding

/-!
# Searching in strings

The search from the left goes from character to character. The one from the
right steps back by one byte, compares there, and only then goes back to the
first byte of the character it is in: below the place where it starts it finds
nothing that begins with a character of several bytes.
-/

set_option autoImplicit false

namespace LambdaMoo.Strings
open LambdaMoo.Utf LambdaMoo.Execute LambdaMoo.Parse LambdaMoo.Decimal

/-- The loop of `strindex` from `s` on, as long as there are enough bytes before the NUL. -/
def strindexLoop (caseCounts : Bool) (what : Str) : ℕ → Str → ℤ → Result ℤ
  | 0, _, _ => .error .outOfFuel
  | fuel+1, s, ind =>
    if s.length < what.length+1 then return 0
    else do
      if (← compare caseCounts what s) = 0 then return ind+1
      else
        match getUtf s with
        | none => .error (.undefined "read past the end of a string")
        | some (_, s) => strindexLoop caseCounts what fuel s (ind+1)

def strindex (source what : Str) (caseCounts : Bool) : Result ℤ :=
  strindexLoop caseCounts what (source.length+1) (source ++ [0]) 0

/-- Steps back from the byte `s` to one that is no continuation byte. -/
def backUp (source : Str) : ℕ → Result ℕ
  | 0 =>
    match source.head? with
    | some b =>
      if b &&& 0xc0 = 0x80 then .error (.undefined "read before the beginning of a string")
      else return 0
    | none => .error (.undefined "read past the end of a string")
  | s+1 =>
    match source[s+1]? with
    | some b => if b &&& 0xc0 = 0x80 then backUp source s else return s+1
    | none => .error (.undefined "read past the end of a string")

/-- The loop of `strrindex`, where `s` is the number of bytes up to the current one. -/
def strrindexLoop (caseCounts : Bool) (what source : Str) : ℕ → ℕ → ℤ → Result ℤ
  | 0, _, _ => .error .outOfFuel
  | _+1, 0, _ => return 0
  | fuel+1, s+1, ind => do
    if (← compare caseCounts what (source.drop s)) = 0 then return ind+1
    else strrindexLoop caseCounts what source fuel (← backUp source s) (ind-1)

def strrindex (source what : Str) (caseCounts : Bool) : Result ℤ :=
  if source.length < what.length then return 0
  else do
    let s ← backUp (source ++ [0]) (source.length-what.length)
    let ind : ℤ := (← strlenUtf (source.length+1) (source ++ [0]))-
      (← strlenUtf (source.length+1) ((source ++ [0]).drop s))
    strrindexLoop caseCounts what (source ++ [0]) (source.length+2) (s+1) ind

/-- A result is the place of the first occurrence, counted from 1, or 0 if there is none. -/
def IsFirst (occurs : ℕ → Prop) (r : ℤ) : Prop :=
  (r = 0 ∧ ∀ p, ¬occurs p) ∨ ∃ p : ℕ, r = p+1 ∧ occurs p ∧ ∀ q, q < p → ¬occurs q

def IsLast (occurs : ℕ → Prop) (r : ℤ) : Prop :=
  (r = 0 ∧ ∀ p, ¬occurs p) ∨ ∃ p : ℕ, r = p+1 ∧ occurs p ∧ ∀ q, p < q → ¬occurs q

/-- The bytes before an occurrence, in it and after it. -/
theorem Occurs.length_eq {f : Folding} {ws cs : List Char} {p : ℕ} (h : Occurs f.char ws cs p) :
    (encode (cs.take p)).length+(encode ws).length+(encode (cs.drop (p+ws.length))).length
      = (encode cs).length := by
  have ht : ws.map f.char = ((cs.drop p).take ws.length).map f.char := by
    have := List.prefix_iff_eq_take.mp h.2
    rwa [List.length_map, ← List.map_take] at this
  have hl := congrArg (fun l => (encode l).length) (List.take_append_drop p cs)
  have hr := congrArg (fun l => (encode l).length) (List.take_append_drop ws.length (cs.drop p))
  simp only [encode_append, List.length_append, List.drop_drop] at hl hr
  rw [← f.length_encode_map ((cs.drop p).take ws.length), ← ht, f.length_encode_map] at hr
  omega

section Forward
variable {ws : List Char} (hw : '\x00' ∉ ws) (caseCounts : Bool)
include hw

theorem strindexLoop_encode {cs : List Char} (hcs : '\x00' ∉ cs) {fuel : ℕ}
    (hf : cs.length < fuel) (ind : ℤ) :
    ∃ r, strindexLoop caseCounts (encode ws) fuel (encode cs ++ [0]) ind = .ok r ∧
      ((r = 0 ∧ ∀ p, ¬Occurs (folding caseCounts).char ws cs p) ∨
        ∃ p : ℕ, r = ind+p+1 ∧ Occurs (folding caseCounts).char ws cs p ∧
          ∀ q, q < p → ¬Occurs (folding caseCounts).char ws cs q) := by
  induction cs generalizing fuel ind with
  | nil =>
    obtain ⟨fuel, rfl⟩ : ∃ k, fuel = k+1 := ⟨fuel-1, by omega⟩
    obtain ⟨r, hr, hz⟩ := compare_chars hw caseCounts hcs
    rw [strindexLoop]
    by_cases hs : (encode [] ++ [0] : Str).length < (encode ws).length+1
    · exact ⟨0, if_pos hs, .inl ⟨rfl, fun p hp => by
        have := hp.length_eq
        simp [encode] at hs this
        omega⟩⟩
    · have he : ws = [] := by
        apply encode_nil_iff.mp
        apply List.length_eq_zero_iff.mp
        simp [encode] at hs ⊢
        omega
      have h0 : r = 0 := hz.mpr (by simp [he])
      rw [if_neg hs, hr]
      exact ⟨ind+1, if_pos h0, .inr ⟨0, by simp, occurs_zero.mpr (hz.mp h0), by simp⟩⟩
  | cons c cs ih =>
    obtain ⟨fuel, rfl⟩ : ∃ k, fuel = k+1 := ⟨fuel-1, by omega⟩
    obtain ⟨r, hr, hz⟩ := compare_chars hw caseCounts hcs
    rw [strindexLoop]
    by_cases hs : (encode (c::cs) ++ [0]).length < (encode ws).length+1
    · refine ⟨0, if_pos hs, .inl ⟨rfl, fun p hp => ?_⟩⟩
      have := hp.length_eq
      rw [List.length_append, List.length_singleton] at hs
      omega
    · rw [if_neg hs, hr]
      simp only [bind, Except.bind]
      by_cases h0 : r = 0
      · exact ⟨ind+1, if_pos h0, .inr ⟨0, by simp, occurs_zero.mpr (hz.mp h0), by simp⟩⟩
      · have hn : ¬Occurs (folding caseCounts).char ws (c::cs) 0 :=
          mt (fun h => hz.mpr (occurs_zero.mp h)) h0
        obtain ⟨r', hr', hspec⟩ := ih (fun h => hcs (List.mem_cons_of_mem c h))
          (show cs.length < fuel by simpa using hf) (ind+1)
        rw [if_neg h0, encode_cons, List.append_assoc, getUtf_char]
        refine ⟨r', hr', ?_⟩
        rcases hspec with ⟨hz', hno⟩|⟨p, hp, ho, hmin⟩
        · refine .inl ⟨hz', fun p => ?_⟩
          cases p with
          | zero => exact hn
          | succ p => exact mt occurs_succ.mp (hno p)
        · refine .inr ⟨p+1, by push_cast; omega, occurs_succ.mpr ho, fun q hq => ?_⟩
          cases q with
          | zero => exact hn
          | succ q => exact mt occurs_succ.mp (hmin q (by omega))

end Forward

theorem strindex_first (source what : Text) (caseCounts : Bool) :
    ∃ r, strindex source.str what.str caseCounts = .ok r ∧
      IsFirst (Occurs (folding caseCounts).char what.chars source.chars) r := by
  obtain ⟨r, hr, h⟩ := strindexLoop_encode what.noNul caseCounts source.noNul
    (Nat.lt_succ_of_le (length_le_encode source.chars)) 0
  refine ⟨r, hr, h.imp_right ?_⟩
  rintro ⟨p, hp, h⟩
  exact ⟨p, by rw [hp, zero_add], h⟩

/-! ## From the right -/

/-- Inside of a character, the way back leads to its first byte. -/
theorem backUp_inside {x tl y : Str} {l : Byte} (hl : ¬IsCont l) (htl : ∀ b ∈ tl, IsCont b)
    {k : ℕ} (hk : k ≤ tl.length) : backUp (x ++ l::(tl ++ y)) (x.length+k) = .ok x.length := by
  induction k with
  | zero =>
    cases x with
    | nil => simp [backUp, mt (cont_mask l).mp hl, pure, Except.pure]
    | cons b x => simp [backUp, mt (cont_mask l).mp hl, pure, Except.pure]
  | succ k ih =>
    have hb : (x ++ l::(tl ++ y))[x.length+k+1]? = some (tl.get ⟨k, hk⟩) := by
      rw [List.getElem?_append_right (by omega), show x.length+k+1-x.length = k+1 by omega,
        List.getElem?_cons_succ, List.getElem?_append_left hk, List.getElem?_eq_getElem hk]
      rfl
    rw [← Nat.add_assoc, backUp, hb]
    simp only [if_pos ((cont_mask _).mpr (htl _ (List.get_mem tl ⟨k, hk⟩)))]
    exact ih (by omega)

theorem backUp_last (x : Str) : backUp (x ++ [0]) x.length = .ok x.length := by
  have hnone : ∀ b ∈ ([] : Str), IsCont b := by simp
  exact backUp_inside (x := x) (y := []) (l := 0) (by decide) hnone (Nat.le_refl 0)

/-- The way back from any place leads to the beginning of a character, or stays at the end. -/
theorem backUp_encode (as bs : List Char) {k : ℕ} (hk : k ≤ (encode bs).length) :
    ∃ ds es, as ++ bs = ds ++ es ∧
      backUp (encode (as ++ bs) ++ [0]) ((encode as).length+k) = .ok (encode ds).length ∧
      (encode ds).length ≤ (encode as).length+k ∧
      ∀ e es', es = e::es' →
        (encode as).length+k < (encode ds).length+(String.utf8EncodeChar e).length := by
  induction bs generalizing as k with
  | nil =>
    obtain rfl : k = 0 := Nat.le_zero.mp hk
    refine ⟨as, [], rfl, ?_, le_rfl, by simp⟩
    rw [List.append_nil]
    exact backUp_last _
  | cons b bs ih =>
    obtain ⟨l, tl, hb, hl, htl, -⟩ := utf8_shape b
    have hlen : (String.utf8EncodeChar b).length = tl.length+1 := by rw [hb, List.length_cons]
    by_cases hlt : k < tl.length+1
    · refine ⟨as, b::bs, rfl, ?_, Nat.le_add_right _ _, ?_⟩
      · rw [encode_append, encode_cons, hb, List.append_assoc, List.append_assoc]
        exact backUp_inside (y := encode bs ++ [0]) hl htl (Nat.lt_succ_iff.mp hlt)
      · intro e es' he
        rw [← (List.cons.inj he).1]
        omega
    · have hsplit : as ++ b::bs = (as ++ [b]) ++ bs := by simp
      have hl2 : (encode (as ++ [b])).length = (encode as).length+(tl.length+1) := by
        rw [encode_append, List.length_append, encode_cons, hb]
        simp [encode]
      obtain ⟨ds, es, hde, hu, hle, hlast⟩ := ih (as ++ [b]) (k := k-(tl.length+1)) (by
        rw [encode_cons, hb] at hk
        simp at hk
        omega)
      have hk2 : (encode (as ++ [b])).length+(k-(tl.length+1)) = (encode as).length+k := by omega
      rw [hk2] at hu hle hlast
      rw [hsplit]
      exact ⟨ds, es, hde, hu, hle, hlast⟩

/-- What the search from the right finds below its first place: an occurrence at a character of
one byte. -/
def Found (f : Char → Char) (ws cs : List Char) (p : ℕ) : Prop :=
  Occurs f ws cs p ∧ ∀ c, cs[p]? = some c → c.val.toNat < 128

theorem occurs_append {f : Char → Char} {ws as bs : List Char} :
    Occurs f ws (as ++ bs) as.length ↔ ws.map f <+: bs.map f := by
  simp [Occurs]

theorem drop_last {α : Type} (b : α) (t : List α) : ∃ d ∈ b::t, (b::t).drop t.length = [d] := by
  induction t generalizing b with
  | nil => exact ⟨b, List.mem_cons_self, rfl⟩
  | cons c t ih =>
    obtain ⟨d, hd, hdrop⟩ := ih c
    exact ⟨d, List.mem_cons_of_mem b hd, hdrop⟩

section Backward
variable {ws : List Char} (hw : '\x00' ∉ ws) (caseCounts : Bool)
include hw

/-- The comparison at the last byte of a character. -/
theorem compare_last (hne : ws ≠ []) {as bs : List Char} {c : Char} {l : Byte} {tl : Str}
    (hcs : '\x00' ∉ as ++ c::bs) (hc : String.utf8EncodeChar c = l::tl)
    (htl : ∀ b ∈ tl, IsCont b) (hone : tl = [] ↔ c.val.toNat < 128) :
    ∃ r, compare caseCounts (encode ws)
        ((encode (as ++ c::bs) ++ [0]).drop ((encode as).length+tl.length)) = .ok r ∧
      (r = 0 ↔ Found (folding caseCounts).char ws (as ++ c::bs) as.length) := by
  have hchar : (as ++ c::bs)[as.length]? = some c := by simp
  have hd : (encode (as ++ c::bs) ++ [0]).drop ((encode as).length+tl.length)
      = (l::tl).drop tl.length ++ (encode bs ++ [0]) := by
    rw [encode_append, encode_cons, hc, List.append_assoc, ← List.drop_drop, List.drop_left,
      List.append_assoc, List.drop_append_of_le_length (by simp)]
  have hcb : '\x00' ∉ c::bs := fun h => hcs (List.mem_append_right as h)
  rw [hd]
  cases htle : tl with
  | nil =>
    subst htle
    obtain ⟨r, hr, hz⟩ := compare_chars hw caseCounts hcb
    refine ⟨r, ?_, ?_⟩
    · rw [encode_cons, hc] at hr
      exact hr
    · rw [hz, Found, occurs_append, iff_self_and]
      intro _ d hd
      rw [hchar, Option.some.injEq] at hd
      exact hd ▸ hone.mp rfl
  | cons b tl' =>
    obtain ⟨d, hmem, hdrop⟩ := drop_last b tl'
    have hd : IsCont d := htl d (by rw [htle]; exact hmem)
    have hn : 0 ∉ d::encode bs := by
      rw [List.mem_cons, not_or]
      refine ⟨?_, encode_ne_zero fun h => hcb (List.mem_cons_of_mem c h)⟩
      rintro rfl
      exact absurd hd (by decide)
    obtain ⟨r, hr, hz⟩ := compare_inside hw caseCounts hne hd hn
    rw [List.length_cons, List.drop_succ_cons, hdrop]
    refine ⟨r, hr, iff_of_false hz fun h => ?_⟩
    have := hone.mpr (h.2 c hchar)
    rw [htle] at this
    cases this

theorem strrindexLoop_encode (hne : ws ≠ []) {as bs : List Char} (hcs : '\x00' ∉ as ++ bs)
    {fuel : ℕ} (hf : (encode as).length < fuel) :
    ∃ r, strrindexLoop caseCounts (encode ws) (encode (as ++ bs) ++ [0]) fuel (encode as).length
        (as.length-1) = .ok r ∧
      ((r = 0 ∧ ∀ q, q < as.length → ¬Found (folding caseCounts).char ws (as ++ bs) q) ∨
        ∃ q : ℕ, q < as.length ∧ r = q+1 ∧ Found (folding caseCounts).char ws (as ++ bs) q ∧
          ∀ p, q < p → p < as.length → ¬Found (folding caseCounts).char ws (as ++ bs) p) := by
  induction as using List.reverseRecOn generalizing bs fuel with
  | nil =>
    obtain ⟨fuel, rfl⟩ : ∃ k, fuel = k+1 := ⟨fuel-1, by omega⟩
    exact ⟨0, rfl, .inl ⟨rfl, fun q hq => absurd hq (Nat.not_lt_zero q)⟩⟩
  | append_singleton as c ih =>
    obtain ⟨fuel, rfl⟩ : ∃ k, fuel = k+1 := ⟨fuel-1, by omega⟩
    obtain ⟨l, tl, hc, hl, htl, hone⟩ := utf8_shape c
    have hsplit : as ++ [c] ++ bs = as ++ c::bs := by simp
    rw [hsplit] at hcs ⊢
    have hlen : (encode (as ++ [c])).length = (encode as).length+tl.length+1 := by
      rw [encode_append, List.length_append, encode_cons, hc]
      simp [encode]
      omega
    obtain ⟨r, hr, hz⟩ := compare_last hw caseCounts hne hcs hc htl hone
    have hback : backUp (encode (as ++ c::bs) ++ [0]) ((encode as).length+tl.length)
        = .ok (encode as).length := by
      rw [encode_append, encode_cons, hc, List.append_assoc, List.append_assoc]
      exact backUp_inside (y := encode bs ++ [0]) hl htl le_rfl
    rw [hlen, strrindexLoop, hr]
    simp only [bind, Except.bind]
    by_cases h0 : r = 0
    · refine ⟨_, if_pos h0, .inr ⟨as.length, by simp, by simp, hz.mp h0, fun p h1 h2 => ?_⟩⟩
      rw [List.length_append, List.length_singleton] at h2
      omega
    · obtain ⟨r', hr', hspec⟩ := ih hcs (show (encode as).length < fuel by omega)
      have hind : ((as ++ [c]).length : ℤ)-1-1 = as.length-1 := by simp
      rw [if_neg h0, hback]
      simp only [hind]
      refine ⟨r', hr', ?_⟩
      have hnot := mt hz.mpr h0
      rcases hspec with ⟨hzero, hno⟩|⟨q, hq, hrq, hfound, hmax⟩
      · refine .inl ⟨hzero, fun q hq => ?_⟩
        rw [List.length_append, List.length_singleton] at hq
        rcases Nat.lt_succ_iff_lt_or_eq.mp hq with hq|rfl
        · exact hno q hq
        · exact hnot
      · refine .inr ⟨q, by rw [List.length_append]; omega, hrq, hfound, fun p hqp hp => ?_⟩
        rw [List.length_append, List.length_singleton] at hp
        rcases Nat.lt_succ_iff_lt_or_eq.mp hp with hp|rfl
        · exact hmax p hqp hp
        · exact hnot

end Backward

theorem backUp_boundary (ds es : List Char) :
    backUp (encode (ds ++ es) ++ [0]) (encode ds).length = .ok (encode ds).length := by
  rw [encode_append, List.append_assoc]
  cases es with
  | nil => exact backUp_last _
  | cons e es =>
    obtain ⟨l, tl, he, hl, htl, -⟩ := utf8_shape e
    rw [encode_cons, he, List.append_assoc]
    exact backUp_inside (y := encode es ++ [0]) (k := 0) hl htl (Nat.zero_le _)

/-- The place where the search from the right starts is the last one at which the word may stand;
all others are tried only at characters of one byte. -/
theorem strrindex_cases (source what : Text) (caseCounts : Bool) :
    ∃ r, strrindex source.str what.str caseCounts = .ok r ∧
      ((r = 0 ∧ source.str.length < what.str.length) ∨
        ∃ ds es, source.chars = ds ++ es ∧ (encode ds).length+what.str.length ≤ source.str.length ∧
          (∀ e es', es = e::es' → source.str.length-what.str.length <
            (encode ds).length+(String.utf8EncodeChar e).length) ∧
          (r = ds.length+1 ∧ Occurs (folding caseCounts).char what.chars source.chars ds.length ∨
            ¬Occurs (folding caseCounts).char what.chars source.chars ds.length ∧
              ((r = 0 ∧ ∀ q, q < ds.length →
                  ¬Found (folding caseCounts).char what.chars source.chars q) ∨
                ∃ q : ℕ, q < ds.length ∧ r = q+1 ∧
                  Found (folding caseCounts).char what.chars source.chars q ∧
                  ∀ p, q < p → p < ds.length →
                    ¬Found (folding caseCounts).char what.chars source.chars p))) := by
  rw [strrindex]
  by_cases hlt : source.str.length < what.str.length
  · exact ⟨0, if_pos hlt, .inl ⟨rfl, hlt⟩⟩
  · rw [if_neg hlt]
    obtain ⟨ds, es, hde, hu, hle, hlast⟩ := backUp_encode [] source.chars
      (k := source.str.length-what.str.length) (Nat.sub_le _ _)
    rw [List.nil_append] at hde hu
    rw [show (encode []).length = 0 from rfl, Nat.zero_add] at hu hle hlast
    have hn := source.noNul
    have hes : '\x00' ∉ es := fun h => hn (hde ▸ List.mem_append_right ds h)
    have hle2 : (encode es).length ≤ source.str.length := by
      rw [Text.str, hde, encode_append, List.length_append]
      exact Nat.le_add_left _ _
    have hdrop : (source.str ++ [0]).drop (encode ds).length = encode es ++ [0] := by
      rw [Text.str, hde, encode_append, List.append_assoc, List.drop_left]
    have hlens : (source.chars.length : ℤ)-es.length = ds.length := by
      rw [hde, List.length_append]
      push_cast
      omega
    obtain ⟨r, hr, hz⟩ := compare_chars what.noNul caseCounts hes
    have hocc : r = 0 ↔ Occurs (folding caseCounts).char what.chars source.chars ds.length := by
      rw [hz, hde, occurs_append]
    have hone : strlenUtf (source.str.length+1) (source.str ++ [0]) = .ok source.chars.length :=
      strlenUtf_encode hn (Nat.lt_succ_self _)
    have htwo : strlenUtf (source.str.length+1) (encode es ++ [0]) = .ok es.length :=
      strlenUtf_encode hes (Nat.lt_succ_of_le hle2)
    rw [show backUp (source.str ++ [0]) (source.str.length-what.str.length) = _ from hu]
    simp only [bind, Except.bind, hone, hdrop, htwo, hlens]
    rw [strrindexLoop, hdrop, show compare caseCounts what.str (encode es ++ [0]) = _ from hr]
    simp only [bind, Except.bind]
    by_cases h0 : r = 0
    · exact ⟨_, if_pos h0, .inr ⟨ds, es, hde, by omega, hlast, .inl ⟨rfl, hocc.mp h0⟩⟩⟩
    · have hne : what.chars ≠ [] := by
        intro he
        exact h0 (hz.mpr (by simp [he]))
      have hback : backUp (source.str ++ [0]) (encode ds).length = .ok (encode ds).length := by
        rw [Text.str, hde]
        exact backUp_boundary ds es
      have hfuel : (encode ds).length < source.str.length+1 := by omega
      obtain ⟨r', hr', hspec⟩ := strrindexLoop_encode what.noNul caseCounts hne (hde ▸ hn) hfuel
      rw [← hde] at hr' hspec
      rw [if_neg h0, hback]
      exact ⟨r', hr', .inr ⟨ds, es, hde, by omega, hlast, .inr ⟨mt hocc.mpr h0, hspec⟩⟩⟩

/-! ## What the searches find -/

theorem ascii_iff (c : Char) : c.val.toNat < 128 ↔ (String.utf8EncodeChar c).length = 1 := by
  obtain ⟨l, tl, hc, -, -, hone⟩ := utf8_shape c
  rw [← hone, hc, List.length_cons, ← List.length_eq_zero_iff]
  omega

theorem Occurs.char {f : Folding} {w : Char} {ws cs : List Char} {p : ℕ}
    (h : Occurs f.char (w::ws) cs p) : ∃ c, cs[p]? = some c ∧
      (String.utf8EncodeChar w).length = (String.utf8EncodeChar c).length := by
  have hp := h.2
  cases hd : cs.drop p with
  | nil =>
    rw [hd] at hp
    simp at hp
  | cons c ds =>
    rw [hd, List.map_cons, List.map_cons, List.cons_prefix_cons] at hp
    refine ⟨c, ?_, f.width_char hp.1⟩
    have := congrArg List.head? hd
    rwa [List.head?_drop] at this

theorem found_iff {f : Folding} {w : Char} {ws cs : List Char} {p : ℕ} :
    Found f.char (w::ws) cs p ↔ Occurs f.char (w::ws) cs p ∧ w.val.toNat < 128 := by
  refine and_congr_right fun h => ?_
  obtain ⟨c, hc, hwidth⟩ := h.char
  rw [ascii_iff, hwidth, ← ascii_iff]
  exact ⟨fun hd => hd c hc, fun hw d hd => Option.some.inj (hc.symm.trans hd) ▸ hw⟩

/-- Behind the place where the search from the right starts, the word does not fit. -/
theorem Occurs.le_start {f : Folding} {ws ds es : List Char} {p : ℕ}
    (h : Occurs f.char ws (ds ++ es) p)
    (hlast : ∀ e es', es = e::es' → (encode (ds ++ es)).length-(encode ws).length <
      (encode ds).length+(String.utf8EncodeChar e).length) : p ≤ ds.length := by
  by_contra hlt
  have hle := h.1
  rw [List.length_append] at hle
  cases es with
  | nil =>
    rw [List.length_nil] at hle
    omega
  | cons e es =>
    have ht : (ds ++ e::es).take p = (ds ++ [e]) ++ es.take (p-ds.length-1) := by
      rw [List.take_append, List.take_of_length_le (by omega), List.append_assoc]
      obtain ⟨k, hk⟩ : ∃ k, p-ds.length = k+1 := ⟨p-ds.length-1, by omega⟩
      rw [hk, List.take_succ_cons, Nat.add_sub_cancel]
      rfl
    have hlen := h.length_eq
    rw [ht, encode_append (ds ++ [e]), encode_append ds, encode_cons, List.length_append,
      List.length_append, List.length_append] at hlen
    have := hlast e es rfl
    omega

/-- The condition for the search from the right: the word begins with a character of one byte or
has none, or it does not occur, or fewer bytes follow an occurrence than its first character has. -/
def Searchable (f : Char → Char) (ws cs : List Char) : Prop :=
  (∀ w ∈ ws.head?, w.val.toNat < 128) ∨ (∀ p, ¬Occurs f ws cs p) ∨
    ∃ p, Occurs f ws cs p ∧ ∃ w ∈ ws.head?,
      (encode (cs.drop (p+ws.length))).length < (String.utf8EncodeChar w).length

/-- Where the word stands at the place the search starts with, few bytes follow. -/
theorem Occurs.searchable {f : Folding} {ws ds es : List Char}
    (h : Occurs f.char ws (ds ++ es) ds.length)
    (hlast : ∀ e es', es = e::es' → (encode (ds ++ es)).length-(encode ws).length <
      (encode ds).length+(String.utf8EncodeChar e).length) : Searchable f.char ws (ds ++ es) := by
  cases ws with
  | nil => exact .inl (by simp)
  | cons w ws =>
    refine .inr (.inr ⟨ds.length, h, w, rfl, ?_⟩)
    obtain ⟨c, hc, hwidth⟩ := h.char
    have hlen := h.length_eq
    rw [List.take_left] at hlen
    cases es with
    | nil => simp at hc
    | cons e es =>
      have := hlast e es rfl
      obtain rfl : e = c := by simpa using hc
      omega

/-- Before that place, too many bytes follow. -/
theorem Occurs.far {f : Folding} {w : Char} {ws ds es : List Char} {p : ℕ}
    (h : Occurs f.char (w::ws) (ds ++ es) p) (hp : p < ds.length)
    (hle : (encode ds).length+(encode (w::ws)).length ≤ (encode (ds ++ es)).length) :
    (String.utf8EncodeChar w).length ≤ (encode ((ds ++ es).drop (p+(w::ws).length))).length := by
  obtain ⟨c, hc, hwidth⟩ := h.char
  have hlen := h.length_eq
  rw [List.getElem?_append_left hp] at hc
  have hd : ds = ds.take p ++ c::ds.drop (p+1) := by
    obtain ⟨hlt, hget⟩ := List.getElem?_eq_some_iff.mp hc
    rw [← hget, ← List.drop_eq_getElem_cons hlt, List.take_append_drop]
  have hds := congrArg (fun l => (encode l).length) hd
  simp only [encode_append, encode_cons, List.length_append] at hds
  rw [List.take_append_of_le_length (le_of_lt hp)] at hlen
  omega

theorem strrindex_last_iff (source what : Text) (caseCounts : Bool) :
    (∃ r, strrindex source.str what.str caseCounts = .ok r ∧
      IsLast (Occurs (folding caseCounts).char what.chars source.chars) r) ↔
    Searchable (folding caseCounts).char what.chars source.chars := by
  obtain ⟨r, hr, hcases⟩ := strrindex_cases source what caseCounts
  rw [hr]
  simp only [Except.ok.injEq, exists_eq_left']
  rcases hcases with ⟨rfl, hlt⟩|⟨ds, es, hde, hle, hlast, hcases⟩
  · have hno : ∀ p, ¬Occurs (folding caseCounts).char what.chars source.chars p := by
      intro p hp
      have := hp.length_eq
      simp only [Text.str] at hlt
      omega
    exact iff_of_true (.inl ⟨rfl, hno⟩) (.inr (.inl hno))
  · simp only [Text.str, hde] at hlast hle
    rw [hde] at hcases ⊢
    have hmax : ∀ p, Occurs (folding caseCounts).char what.chars (ds ++ es) p → p ≤ ds.length :=
      fun p hp => hp.le_start hlast
    rcases hcases with ⟨rfl, ho⟩|⟨hno, hcases⟩
    · refine iff_of_true (.inr ⟨ds.length, rfl, ho, fun q hq hoq => ?_⟩) (ho.searchable hlast)
      have := hmax q hoq
      omega
    · obtain ⟨w, ws, hws⟩ : ∃ w ws, what.chars = w::ws := by
        refine List.exists_cons_of_ne_nil fun he => hno ?_
        rw [he]
        exact ⟨by simp, by simp⟩
      rw [hws] at hno hcases hmax ⊢
      simp only [found_iff] at hcases
      by_cases hw : w.val.toNat < 128
      · simp only [hw, and_true] at hcases
        refine iff_of_true ?_ (.inl (by simpa using hw))
        rcases hcases with ⟨hz, hn⟩|⟨q, hq, hrq, hoq, hm⟩
        · refine .inl ⟨hz, fun p hp => ?_⟩
          rcases Nat.lt_or_eq_of_le (hmax p hp) with hlt|rfl
          · exact hn p hlt hp
          · exact hno hp
        · refine .inr ⟨q, hrq, hoq, fun p hqp hp => ?_⟩
          rcases Nat.lt_or_eq_of_le (hmax p hp) with hlt|rfl
          · exact hm p hqp hlt hp
          · exact hno hp
      · obtain rfl : r = 0 := by
          rcases hcases with ⟨hz, -⟩|⟨q, -, -, ⟨-, hc⟩, -⟩
          · exact hz
          · exact absurd hc hw
        have hfar : ∀ p, Occurs (folding caseCounts).char (w::ws) (ds ++ es) p →
            (String.utf8EncodeChar w).length
              ≤ (encode ((ds ++ es).drop (p+(w::ws).length))).length := by
          intro p hp
          rcases Nat.lt_or_eq_of_le (hmax p hp) with hlt|rfl
          · exact hp.far hlt (by rw [← hws]; exact hle)
          · exact absurd hp hno
        constructor
        · rintro (⟨-, hn⟩|⟨p, hp, -⟩)
          · exact .inr (.inl hn)
          · omega
        · rintro (hc|hn|⟨p, hp, w', hw', hlt⟩)
          · exact absurd (hc w rfl) hw
          · exact .inl ⟨rfl, hn⟩
          · obtain rfl : w = w' := Option.some.inj hw'
            have := hfar p hp
            omega

/-- What the two searches should find. -/
structure Searches (source what : Text) (caseCounts : Bool) (i j : ℤ) : Prop where
  left : strindex source.str what.str caseCounts = .ok i
  right : strrindex source.str what.str caseCounts = .ok j
  first : IsFirst (Occurs (folding caseCounts).char what.chars source.chars) i
  last : IsLast (Occurs (folding caseCounts).char what.chars source.chars) j
  zero : what.chars ≠ [] → (i = 0 ↔ j = 0)
  le : what.chars ≠ [] → i ≤ j

theorem first_last {occurs : ℕ → Prop} {i j : ℤ} (hi : IsFirst occurs i) (hj : IsLast occurs j) :
    (i = 0 ↔ j = 0) ∧ i ≤ j := by
  rcases hi with ⟨rfl, hn⟩|⟨p, rfl, hp, hmin⟩
  · rcases hj with ⟨rfl, -⟩|⟨q, -, hq, -⟩
    · exact ⟨Iff.rfl, le_rfl⟩
    · exact absurd hq (hn q)
  · rcases hj with ⟨-, hn⟩|⟨q, rfl, hq, hmax⟩
    · exact absurd hp (hn p)
    · have hpq : p ≤ q := Nat.not_lt.mp fun h => hmin q h hq
      exact ⟨iff_of_false (by omega) (by omega), by omega⟩

/-- The searches find what they should exactly when the one from the right does. -/
theorem searches_iff (source what : Text) (caseCounts : Bool) :
    (∃ i j, Searches source what caseCounts i j) ↔
      Searchable (folding caseCounts).char what.chars source.chars := by
  rw [← strrindex_last_iff]
  constructor
  · rintro ⟨i, j, h⟩
    exact ⟨j, h.right, h.last⟩
  · rintro ⟨j, hj, hlast⟩
    obtain ⟨i, hi, hfirst⟩ := strindex_first source what caseCounts
    have h := first_last hfirst hlast
    exact ⟨i, j, hi, hj, hfirst, hlast, fun _ => h.1, fun _ => h.2⟩

/-- The search from the right misses a character of two bytes at the beginning. -/
theorem strrindex_misses : ¬∀ (source what : Text) (caseCounts : Bool),
    ∃ i j, Searches source what caseCounts i j := by
  intro h
  obtain ⟨i, j, hs⟩ := h ⟨['é', 'a', 'b'], by decide⟩ ⟨['é'], by decide⟩ true
  have hi : strindex (encode ['é', 'a', 'b']) (encode ['é']) true = .ok 1 := by rfl
  have hj : strrindex (encode ['é', 'a', 'b']) (encode ['é']) true = .ok 0 := by rfl
  obtain rfl : 1 = i := Except.ok.inj (hi.symm.trans hs.left)
  obtain rfl : 0 = j := Except.ok.inj (hj.symm.trans hs.right)
  exact absurd ((hs.zero (by decide)).mpr rfl) (by decide)

end LambdaMoo.Strings
