import LambdaMoo.Folding

/-!
# Substitution in strings

The scan goes byte by byte and replaces `what` wherever it stands. On
well-formed strings it replaces whole characters, from left to right, and
stops at the end of the string.
-/

set_option autoImplicit false

namespace LambdaMoo.Strings
open LambdaMoo.Utf LambdaMoo.Execute LambdaMoo.Parse LambdaMoo.Decimal

/-- The loop of `strsub` from `source` on, with the NUL at its end. -/
def strsubLoop (caseCounts : Bool) (what subst : Str) : ℕ → Str → Result Str
  | 0, _ => .error .outOfFuel
  | _+1, [] => .error (.undefined "read past the end of a string")
  | fuel+1, c::source =>
    if c = 0 then return []
    else do
      if (← compare caseCounts what (c::source)) = 0 then
        return subst ++ (← strsubLoop caseCounts what subst fuel ((c::source).drop what.length))
      else return c::(← strsubLoop caseCounts what subst fuel source)

def strsub (source what subst : Str) (caseCounts : Bool) : Result Str :=
  strsubLoop caseCounts what subst (source.length+1) (source ++ [0])

def bfStrsub (source what subst : Str) (caseMatters : Bool) : Result (Except Err Str) :=
  if what.isEmpty then return .error .invarg
  else return .ok (← strsub source what subst caseMatters)

/-- Replaces from left to right what is `ws` up to `f`, after the next `skip` characters, which
have been replaced. -/
def replaceAll (f : Char → Char) (ws ys : List Char) : ℕ → List Char → List Char
  | _, [] => []
  | skip+1, _::cs => replaceAll f ws ys skip cs
  | 0, c::cs =>
    if (ws.map f).isPrefixOf ((c::cs).map f) then ys ++ replaceAll f ws ys (ws.length-1) cs
    else c::replaceAll f ws ys 0 cs

theorem replaceAll_skip (f : Char → Char) (ws ys : List Char) (skip : ℕ) (cs : List Char) :
    replaceAll f ws ys skip cs = replaceAll f ws ys 0 (cs.drop skip) := by
  induction cs generalizing skip with
  | nil => cases skip <;> simp [replaceAll]
  | cons c cs ih =>
    cases skip with
    | zero => rfl
    | succ skip => rw [replaceAll, ih, List.drop_succ_cons]

theorem replaceAll_noNul (f : Char → Char) {ws ys : List Char} (hy : '\x00' ∉ ys) (skip : ℕ)
    {cs : List Char} (hcs : '\x00' ∉ cs) : '\x00' ∉ replaceAll f ws ys skip cs := by
  induction cs generalizing skip with
  | nil => cases skip <;> simp [replaceAll]
  | cons c cs ih =>
    rw [List.mem_cons, not_or] at hcs
    cases skip with
    | succ skip => exact ih skip hcs.2
    | zero =>
      rw [replaceAll]
      split
      · rw [List.mem_append, not_or]
        exact ⟨hy, ih _ hcs.2⟩
      · rw [List.mem_cons, not_or]
        exact ⟨hcs.1, ih _ hcs.2⟩

theorem drop_replaced (caseCounts : Bool) {ws cs : List Char}
    (h : ws.map (folding caseCounts).char <+: cs.map (folding caseCounts).char) :
    (encode cs ++ [0]).drop (encode ws).length = encode (cs.drop ws.length) ++ [0] := by
  have ht : ws.map (folding caseCounts).char = (cs.take ws.length).map (folding caseCounts).char := by
    have := List.prefix_iff_eq_take.mp h
    rwa [List.length_map, ← List.map_take] at this
  rw [← (folding caseCounts).length_encode_map ws, ht, Folding.length_encode_map, drop_encode]

theorem length_encode_drop (cs : List Char) (k : ℕ) :
    (encode (cs.drop k)).length ≤ (encode cs).length := by
  have h := congrArg (fun l => (encode l).length) (List.take_append_drop k cs)
  simp only [encode_append, List.length_append] at h
  omega

section Loop
variable {ws : List Char} (hw : '\x00' ∉ ws) (hne : ws ≠ []) (caseCounts : Bool) (subst : Str)
include hw hne

/-- The rest of a character is copied. -/
theorem strsubLoop_inside {tl : Str} (htl : ∀ b ∈ tl, IsCont b) (x : Str) (hx : 0 ∉ x)
    (fuel : ℕ) : strsubLoop caseCounts (encode ws) subst (tl.length+fuel) (tl ++ x ++ [0]) =
      (strsubLoop caseCounts (encode ws) subst fuel (x ++ [0])).map (tl ++ ·) := by
  induction tl with
  | nil =>
    rw [List.length_nil, Nat.zero_add, List.nil_append]
    cases strsubLoop caseCounts (encode ws) subst fuel (x ++ [0]) <;> rfl
  | cons b tl ih =>
    have hb := htl b List.mem_cons_self
    have ht := fun d hd => htl d (List.mem_cons_of_mem b hd)
    have h0 : ∀ d, IsCont d → d ≠ 0 := by
      rintro d hd rfl
      exact absurd hd (by decide)
    have hn : 0 ∉ b::(tl ++ x) := by
      intro hm
      rcases List.mem_cons.mp hm with e|hm
      · exact h0 b hb e.symm
      · rcases List.mem_append.mp hm with hm|hm
        · exact h0 0 (ht 0 hm) rfl
        · exact hx hm
    obtain ⟨r, hr, hz⟩ := compare_inside hw caseCounts hne hb hn
    rw [show (b::tl).length+fuel = (tl.length+fuel)+1 by rw [List.length_cons]; omega,
      List.cons_append, List.cons_append, strsubLoop, if_neg (h0 b hb),
      show compare caseCounts (encode ws) (b::(tl ++ x ++ [0])) = .ok r from hr]
    simp only [bind, Except.bind, hz, if_false, ih ht]
    cases strsubLoop caseCounts (encode ws) subst fuel (x ++ [0]) <;> rfl

/-- The scan of bytes is a scan of characters. -/
theorem strsubLoop_encode (ys : List Char) {cs : List Char} (hcs : '\x00' ∉ cs) {fuel : ℕ}
    (hf : (encode cs).length < fuel) :
    strsubLoop caseCounts (encode ws) (encode ys) fuel (encode cs ++ [0]) =
      .ok (encode (replaceAll (folding caseCounts).char ws ys 0 cs)) := by
  induction fuel using Nat.strong_induction_on generalizing cs with
  | _ fuel ih =>
    obtain ⟨fuel, rfl⟩ : ∃ k, fuel = k+1 := ⟨fuel-1, by omega⟩
    cases cs with
    | nil => rfl
    | cons c cs =>
      obtain ⟨l, tl, hc, -, htl, -⟩ := utf8_shape c
      have hcs' : '\x00' ∉ cs := fun h => hcs (List.mem_cons_of_mem c h)
      have hl : l ≠ 0 := by
        have := encode_ne_zero hcs
        rw [encode_cons, hc] at this
        exact fun e => this (by simp [e])
      have hs : encode (c::cs) ++ [0] = l::(tl ++ encode cs ++ [0]) := by
        rw [encode_cons, hc]
        rfl
      have hlen : (encode (c::cs)).length = 1+tl.length+(encode cs).length := by
        rw [encode_cons, hc, List.length_append, List.length_cons]
        omega
      obtain ⟨r, hr, hz⟩ := compare_chars hw caseCounts hcs
      rw [replaceAll, hs, strsubLoop, if_neg hl, ← hs, hr]
      simp only [bind, Except.bind]
      by_cases h0 : r = 0
      · obtain ⟨k, hk⟩ : ∃ k, ws.length = k+1 :=
          ⟨ws.length-1, by have := List.length_pos_iff.mpr hne; omega⟩
        have hd := length_encode_drop cs k
        rw [if_pos h0, if_pos (List.isPrefixOf_iff_prefix.mpr (hz.mp h0)),
          drop_replaced caseCounts (hz.mp h0), hk, List.drop_succ_cons,
          ih fuel (Nat.lt_succ_self _) (fun h => hcs' (List.mem_of_mem_drop h)) (by omega),
          Nat.add_sub_cancel, replaceAll_skip _ ws ys k cs, encode_append]
        rfl
      · obtain ⟨m, rfl⟩ : ∃ m, fuel = tl.length+m := ⟨fuel-tl.length, by omega⟩
        rw [if_neg h0, if_neg (mt (fun h => hz.mpr (List.isPrefixOf_iff_prefix.mp h)) h0),
          strsubLoop_inside hw hne caseCounts (encode ys) htl (encode cs) (encode_ne_zero hcs') m,
          ih m (by omega) hcs' (by omega), encode_cons, hc]
        rfl

end Loop

/-- The text with every occurrence of a word replaced: up to the leftmost one it is copied, and
after it the rest is treated in the same way. -/
inductive Replaced (f : Char → Char) (ws ys : List Char) : List Char → List Char → Prop
  | none {cs : List Char} (h : ∀ p, ¬Occurs f ws cs p) : Replaced f ws ys cs cs
  | first {cs r : List Char} {p : ℕ} (h : Occurs f ws cs p) (hq : ∀ q, q < p → ¬Occurs f ws cs q)
      (hr : Replaced f ws ys (cs.drop (p+ws.length)) r) :
      Replaced f ws ys cs (cs.take p ++ ys ++ r)

theorem replaceAll_copies (f : Char → Char) (ws ys : List Char) {cs : List Char} {p : ℕ}
    (hp : p ≤ cs.length) (h : ∀ q, q < p → ¬Occurs f ws cs q) :
    replaceAll f ws ys 0 cs = cs.take p ++ replaceAll f ws ys 0 (cs.drop p) := by
  induction p generalizing cs with
  | zero => simp
  | succ p ih =>
    cases cs with
    | nil => simp at hp
    | cons c cs =>
      have h0 := h 0 (Nat.succ_pos p)
      rw [occurs_zero] at h0
      rw [replaceAll, if_neg (mt List.isPrefixOf_iff_prefix.mp h0), List.take_succ_cons,
        List.drop_succ_cons, List.cons_append, ← ih (by simpa using hp)]
      intro q hq
      exact mt occurs_succ.mpr (h (q+1) (by omega))

theorem replaceAll_first (f : Char → Char) {ws : List Char} (hne : ws ≠ []) (ys : List Char)
    {cs : List Char} (h : ws.map f <+: cs.map f) :
    replaceAll f ws ys 0 cs = ys ++ replaceAll f ws ys 0 (cs.drop ws.length) := by
  obtain ⟨w, ws, rfl⟩ := List.exists_cons_of_ne_nil hne
  cases cs with
  | nil => simp at h
  | cons c cs =>
    rw [replaceAll, if_pos (List.isPrefixOf_iff_prefix.mpr h), replaceAll_skip]
    rfl

/-- Replacing from left to right replaces the leftmost occurrences that do not overlap. -/
theorem replaced_replaceAll (f : Char → Char) {ws : List Char} (hne : ws ≠ []) (ys cs : List Char) :
    Replaced f ws ys cs (replaceAll f ws ys 0 cs) := by
  induction hn : cs.length using Nat.strong_induction_on generalizing cs with
  | _ n ih =>
    by_cases ho : ∃ p, Occurs f ws cs p
    · have h := Nat.find_spec ho
      have hmin := fun q hq => Nat.find_min ho (m := q) hq
      have hpos : 0 < ws.length := List.length_pos_iff.mpr hne
      have hle : ws.length ≤ (cs.drop (Nat.find ho)).length := by
        have := h.2.length_le
        rwa [List.length_map, List.length_map] at this
      rw [List.length_drop] at hle
      rw [replaceAll_copies f ws ys h.1 hmin, replaceAll_first f hne ys h.2, List.drop_drop,
        ← List.append_assoc]
      exact .first h hmin (ih _ (by rw [List.length_drop]; omega) _ rfl)
    · have hno : ∀ p, ¬Occurs f ws cs p := fun p hp => ho ⟨p, hp⟩
      have he := replaceAll_copies f ws ys (le_refl cs.length) fun q _ => hno q
      rw [List.take_length, List.drop_length, replaceAll, List.append_nil] at he
      rw [he]
      exact .none hno

/-- Substitution replaces the leftmost occurrences that do not overlap by whole characters, and
gives a well-formed string again; with an empty word nothing is tried. -/
theorem strsub_replaces (source what subst : Text) (caseCounts : Bool) :
    (what.chars ≠ [] → ∃ t : Text, strsub source.str what.str subst.str caseCounts = .ok t.str ∧
      Replaced (folding caseCounts).char what.chars subst.chars source.chars t.chars ∧
      bfStrsub source.str what.str subst.str caseCounts = .ok (.ok t.str)) ∧
    (what.chars = [] → bfStrsub source.str what.str subst.str caseCounts = .ok (.error .invarg)) := by
  constructor
  · intro hne
    have hs : strsub source.str what.str subst.str caseCounts = _ :=
      strsubLoop_encode what.noNul hne caseCounts subst.chars source.noNul (Nat.lt_succ_self _)
    refine ⟨⟨_, replaceAll_noNul _ subst.noNul 0 source.noNul⟩, hs,
      replaced_replaceAll _ hne _ _, ?_⟩
    have hb : what.str.isEmpty = false := by
      rw [List.isEmpty_eq_false_iff, Text.str]
      exact mt encode_nil_iff.mp hne
    rw [bfStrsub, hb, hs]
    rfl
  · intro he
    rw [bfStrsub, Text.str, Text.str, he]
    rfl

theorem strsub_replaces_accent : ∃ t : Text,
    strsub (encode ['E', 'é', 'e']) (encode ['e']) (encode ['é']) false = .ok t.str ∧
      Replaced Char.toLower ['e'] ['é'] ['E', 'é', 'e'] t.chars := by
  obtain ⟨t, hs, hr, -⟩ := (strsub_replaces ⟨['E', 'é', 'e'], by decide⟩ ⟨['e'], by decide⟩
    ⟨['é'], by decide⟩ false).1 (by decide)
  exact ⟨t, hs, hr⟩

end LambdaMoo.Strings
