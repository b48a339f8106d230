import LambdaMoo.Cuts

/-!
# Numerals at a cut

What a numeral does at a dot depends on up to three characters behind the dot.
Apart from that, whatever leads to a place in a text leads to the same place
when a comment follows there.
-/

set_option autoImplicit false

namespace LambdaMoo.Lexemes
open LambdaMoo.Utf LambdaMoo.DbIo LambdaMoo.Parse

section
variable {x : Library} (hx : x.Ascii)
include hx

theorem slash_digit : x.isdigit (rune '/') = false := hx.digit 47 (by decide)

theorem slash_inWord : inWord x (rune '/') = false := by
  have h : x.isXidCont (rune '/') = false := hx.cont 47 (by decide)
  rw [inWord, h]
  decide

theorem digitsOr_local (f : Runes → Option Token) :
    Local fun us => (if us.takeWhile x.isdigit = [] then none else f (us.takeWhile x.isdigit),
      us.dropWhile x.isdigit) :=
  (Local.span (slash_digit hx)).map fun ds => if ds = [] then none else f ds

theorem object_local : Local (object x) :=
  Local.next (p := (· = rune '-')) (by decide)
    (fun _ => digitsOr_local hx fun ds => some ⟨.tObject, .object (-valueOf x 0 ds)⟩)
    (fun _ _ => List.dropWhile_suffix _)
    (digitsOr_local hx fun ds => some ⟨.tObject, .object (valueOf x 0 ds)⟩)

theorem exponentSign_local (tok : Str) : Local (exponentSign x tok) :=
  Local.next (p := fun c => c = rune '+' ∨ c = rune '-') (by decide)
    (fun c => digitsOr_local hx fun ds => numeral x true 0 (textOf (streamAddUtf tok c) ds))
    (fun _ _ => List.dropWhile_suffix _)
    (digitsOr_local hx fun ds => numeral x true 0 (textOf tok ds))

variable (version : DbVersion)

theorem exponent_local (isFloat : Bool) (n : Num) (tok : Str) :
    Local (exponent x version isFloat n tok) :=
  Local.next (p := fun c => floats version ∧ (c = rune 'e' ∨ c = rune 'E'))
    (fun h => absurd h.2 (by decide)) (fun c => exponentSign_local hx (streamAddUtf tok c))
    (fun c => exponentSign_suffix x _) (Local.value (numeral x isFloat n tok))

theorem word_local (c : ℤ) : Local (word x version c) :=
  (Local.span (slash_inWord hx)).map fun cs =>
    some (wordToken version (textOf (streamAddUtf [] c) cs))

/-- What a numeral does at a dot depends on more than the characters before `post`: `w` is the
text before it at the numeral and `v` the text before it that the numeral leaves. -/
inductive Glue (x : Library) (version : DbVersion) (w v post : Runes) : Prop
  | dot (hv : floats version) {ds : Runes} (hd : ds ≠ []) (hall : ∀ d ∈ ds, x.isdigit d = true)
      (hw : w = ds ++ [rune '.']) (hr : v = [rune '.']) (ho : Operator x post)
  | xor (hv : floats version) (hr : v = [rune '.', rune '^']) (ho : ahead post = rune '.')
  | root (hv : floats version) (hr : v = [rune '^', rune '.'])
      (ho : x.isdigit (ahead post) = true)

omit hx in
/-- Where an operator begins before `post` and none before a comment. -/
theorem operator_post (hs : x.isdigit (rune '/') = false) {q post cut : Runes} (ho : Opens cut)
    (h : Operator x (q ++ post)) (hc : ¬ Operator x (q ++ cut)) :
    q = [] ∨ q = [rune '^'] ∧ ahead post = rune '.' := by
  obtain ⟨r, rfl⟩ := ho
  match q with
  | [] => exact .inl rfl
  | [a] =>
    rcases h with h | h | h | ⟨h, h', -⟩
    · exact absurd (Or.inl h) hc
    · exact absurd (Or.inr (Or.inl h)) hc
    · exact absurd (Or.inr (Or.inr (Or.inl h))) hc
    · exact .inr ⟨congrArg (fun c => [c]) h, h'⟩
  | [a, b] =>
    rcases h with h | h | h | ⟨h, h', -⟩
    · exact absurd (Or.inl h) hc
    · exact absurd (Or.inr (Or.inl h)) hc
    · exact absurd (Or.inr (Or.inr (Or.inl h))) hc
    · exact absurd (Or.inr (Or.inr (Or.inr ⟨h, h', hs⟩))) hc
  | a::b::d::q => exact absurd h hc

omit hx in
theorem operator_opens {cut : Runes} (ho : Opens cut) : ¬ Operator x cut := by
  obtain ⟨r, rfl⟩ := ho
  rintro (h | h | h | ⟨h, -⟩)
  · exact absurd h (show ¬ rune '/' = rune '.' by decide)
  · exact absurd h (show ¬ rune '/' = rune '|' by decide)
  · exact absurd h (show ¬ rune '/' = rune '&' by decide)
  · exact absurd h (show ¬ rune '/' = rune '^' by decide)

omit hx in
/-- Where an operator begins before a comment and none before `post`. -/
theorem operator_comment {q post cut : Runes} (ho : Opens cut) (h : ¬ Operator x (q ++ post))
    (hc : Operator x (q ++ cut)) :
    q = [rune '^', rune '.'] ∧ x.isdigit (ahead post) = true := by
  match q with
  | [] => exact absurd hc (operator_opens ho)
  | [a] =>
    obtain ⟨r, rfl⟩ := ho
    rcases hc with hc | hc | hc | ⟨-, hc, -⟩
    · exact absurd (Or.inl hc) h
    · exact absurd (Or.inr (Or.inl hc)) h
    · exact absurd (Or.inr (Or.inr (Or.inl hc))) h
    · exact absurd hc (show ¬ rune '/' = rune '.' by decide)
  | [a, b] =>
    rcases hc with hc | hc | hc | ⟨hc, hc', -⟩
    · exact absurd (Or.inl hc) h
    · exact absurd (Or.inr (Or.inl hc)) h
    · exact absurd (Or.inr (Or.inr (Or.inl hc))) h
    · obtain rfl : a = rune '^' := hc
      obtain rfl : b = rune '.' := hc'
      refine ⟨rfl, ?_⟩
      by_contra hd
      exact h (Or.inr (Or.inr (Or.inr ⟨rfl, rfl, Bool.not_eq_true _ ▸ hd⟩)))
  | a::b::d::q => exact absurd hc h

omit hx in
theorem fraction_dot (hv : floats version) (n : Num) (tok : Str) (us : Runes) :
    fraction x version n tok (rune '.'::us) =
      if x.isdigit (ahead us) then
        exponent x version true n (textOf (streamAddUtf tok (rune '.')) (us.takeWhile x.isdigit))
          (us.dropWhile x.isdigit)
      else if tok = [] then dot us
      else if Operator x us then (numeral x false n tok, rune '.'::us)
      else exponent x version true n (streamAddUtf tok (rune '.')) us := if_pos ⟨hv, rfl⟩

/-- From the dot of a numeral on, with `q` between it and `post`. -/
theorem fraction_dot_cut (hv : floats version) {q post cut v : Runes} (ho : Opens cut)
    (hp : post ≠ []) (n : Num) {ds : Runes} (hds : ∀ d ∈ ds, x.isdigit d = true)
    (h : (fraction x version n (textOf [] ds) (rune '.'::(q ++ post))).2 = v ++ post) :
    fraction x version n (textOf [] ds) (rune '.'::(q ++ cut)) =
        ((fraction x version n (textOf [] ds) (rune '.'::(q ++ post))).1, v ++ cut) ∨
      Glue x version (ds ++ rune '.'::q) v post := by
  have hslash := slash_digit hx
  rw [fraction_dot version hv] at h
  rw [fraction_dot version hv, fraction_dot version hv]
  by_cases hd : x.isdigit (ahead (q ++ post)) = true
  · rw [if_pos hd] at h ⊢
    have hq : q ≠ [] := by
      rintro rfl
      obtain ⟨e, rest, rfl⟩ := List.exists_cons_of_ne_nil hp
      refine not_past hp h ((exponent_suffix x version _ _ _ _).trans ?_)
      rw [List.nil_append, List.dropWhile_cons_of_pos (show x.isdigit e = true from hd)]
      exact List.dropWhile_suffix _
    have hd' : x.isdigit (ahead (q ++ cut)) = true := by
      obtain ⟨c, q, rfl⟩ := List.exists_cons_of_ne_nil hq
      exact hd
    rw [if_pos hd']
    exact .inl ((Local.span hslash).bind (fun _ => List.dropWhile_suffix _)
      (fun cs => exponent_local hx version true n (textOf (streamAddUtf (textOf [] ds) (rune '.')) cs))
      (fun _ => exponent_suffix x version _ _ _) ho hp h)
  · have hd' : ¬ x.isdigit (ahead (q ++ cut)) = true := by
      cases q with
      | nil =>
        obtain ⟨r, rfl⟩ := ho
        exact Bool.eq_false_iff.mp hslash
      | cons c q => exact hd
    rw [if_neg hd] at h ⊢
    rw [if_neg hd']
    by_cases ht : textOf [] ds = []
    · rw [if_pos ht] at h ⊢
      rw [if_pos ht]
      exact .inl (dot_local ho hp h)
    · rw [if_neg ht] at h ⊢
      rw [if_neg ht]
      have hne : ds ≠ [] := by
        rintro rfl
        exact ht rfl
      by_cases hop : Operator x (q ++ post)
      · rw [if_pos hop] at h ⊢
        have hv' : rune '.'::q = v :=
          List.append_cancel_right (show rune '.'::q ++ post = v ++ post from h)
        by_cases hop' : Operator x (q ++ cut)
        · rw [if_pos hop', ← hv']
          exact .inl rfl
        · obtain rfl | ⟨rfl, ha⟩ := operator_post hslash ho hop hop'
          · exact .inr (.dot hv hne hds rfl hv'.symm hop)
          · exact .inr (.xor hv hv'.symm ha)
      · rw [if_neg hop] at h ⊢
        by_cases hop' : Operator x (q ++ cut)
        · obtain ⟨rfl, ha⟩ := operator_comment ho hop hop'
          have hr : (exponent x version true n (streamAddUtf (textOf [] ds) (rune '.'))
              ([rune '^', rune '.'] ++ post)).2 = [rune '^', rune '.'] ++ post := by
            rw [exponent, if_neg (fun hc => absurd hc.2
              (show ¬ (rune '^' = rune 'e' ∨ rune '^' = rune 'E') by decide))]
          exact .inr (.root hv (List.append_cancel_right (h.symm.trans hr)) ha)
        · rw [if_neg hop']
          exact .inl (exponent_local hx version _ _ _ ho hp h)

/-- After the digits of a numeral, with `q` before `post`. -/
theorem fraction_cut {q post cut v : Runes} (ho : Opens cut) (hp : post ≠ []) (n : Num)
    {ds : Runes} (hds : ∀ d ∈ ds, x.isdigit d = true)
    (h : (fraction x version n (textOf [] ds) (q ++ post)).2 = v ++ post) :
    fraction x version n (textOf [] ds) (q ++ cut) =
        ((fraction x version n (textOf [] ds) (q ++ post)).1, v ++ cut) ∨
      Glue x version (ds ++ q) v post := by
  have hslash : ahead cut = rune '/' := by
    obtain ⟨r, rfl⟩ := ho
    rfl
  by_cases hdot : floats version ∧ ahead (q ++ post) = rune '.'
  · obtain ⟨hv, ha⟩ := hdot
    cases q with
    | nil =>
      obtain ⟨e, rest, rfl⟩ := List.exists_cons_of_ne_nil hp
      obtain rfl : e = rune '.' := ha
      have hcut : fraction x version n (textOf [] ds) ([] ++ cut) =
          (numeral x false n (textOf [] ds), cut) := by
        rw [List.nil_append, fraction, hslash, if_neg (fun hc => absurd hc.2 (by decide)), exponent,
          hslash, if_neg (fun hc => absurd hc.2 (by decide))]
      rw [List.nil_append, fraction_dot version hv] at h
      rw [hcut, List.nil_append, fraction_dot version hv]
      split_ifs at h ⊢
      · exact (not_past hp h ((exponent_suffix x version _ _ _ _).trans
          (List.dropWhile_suffix _))).elim
      · exact (not_past hp h (dot_suffix _)).elim
      · have hv' : [] = v :=
          List.append_cancel_right (show [] ++ rune '.'::rest = v ++ rune '.'::rest from h)
        rw [← hv']
        exact .inl rfl
      · exact (not_past hp h (exponent_suffix x version _ _ _ _)).elim
    | cons c q =>
      obtain rfl : c = rune '.' := ha
      exact fraction_dot_cut hx version hv ho hp n hds h
  · have hdot' : ¬ (floats version ∧ ahead (q ++ cut) = rune '.') := by
      rintro ⟨hv, hd⟩
      cases q with
      | nil => exact absurd (hslash.symm.trans hd) (by decide)
      | cons c q => exact hdot ⟨hv, hd⟩
    unfold fraction at h ⊢
    rw [if_neg hdot] at h ⊢
    rw [if_neg hdot']
    exact .inl (exponent_local hx version _ _ _ ho hp h)

theorem number_cut {w post cut v : Runes} (ho : Opens cut) (hp : post ≠ [])
    (h : (number x version (w ++ post)).2 = v ++ post) :
    number x version (w ++ cut) = ((number x version (w ++ post)).1, v ++ cut) ∨
      Glue x version w v post := by
  have hv : v ++ post <:+ (w ++ post).dropWhile x.isdigit := by
    rw [← h]
    exact fraction_suffix x version _ _ _
  obtain ⟨q, hq, -, -⟩ := suffix_split (List.dropWhile_suffix _) hv
  have hs := Prod.mk.inj (Local.span (slash_digit hx) ho hp hq)
  have hw : w = (w ++ post).takeWhile x.isdigit ++ q := by
    have ha : w ++ post = (w ++ post).takeWhile x.isdigit ++ q ++ post := by
      rw [List.append_assoc, ← hq, List.takeWhile_append_dropWhile]
    exact List.append_cancel_right ha
  have hds : ∀ d ∈ (w ++ post).takeWhile x.isdigit, x.isdigit d = true :=
    fun d hd => List.all_eq_true.mp List.all_takeWhile d hd
  unfold number at h ⊢
  dsimp only at h ⊢
  rw [hq] at h ⊢
  rw [hs.1, hs.2]
  dsimp only
  have hc := fraction_cut hx version ho hp (valueOf x 0 ((w ++ post).takeWhile x.isdigit)) hds h
  rwa [← hw] at hc

theorem token_cut {c : ℤ} {w post cut v : Runes} (ho : Opens cut) (hp : post ≠ [])
    (h : (token x version c (w ++ post)).2 = v ++ post) :
    token x version c (w ++ cut) = ((token x version c (w ++ post)).1, v ++ cut) ∨
      Glue x version (c::w) v post := by
  unfold token at h ⊢
  split_ifs at h ⊢
  · exact .inl (object_local hx ho hp h)
  · exact number_cut hx version (w := c::w) ho hp h
  · exact .inl (word_local hx version c ho hp h)
  · exact .inl ((chars_local []).map (fun s => some (⟨.tString, .string s⟩ : Token)) ho hp h)
  · exact .inl (other_local c ho hp h)

omit hx in
/-- After a slash. -/
theorem slash_cut {w post cut v : Runes} {e : Event} (hs : ¬ x.isspace (rune '/') = true)
    (ho : Opens cut) (hp : post ≠ [])
    (h : step x version (rune '/'::(w ++ post)) = (e, v ++ post)) (he : e ≠ .stop) :
    step x version (rune '/'::(w ++ cut)) = (e, v ++ cut) := by
  have hslash : ahead cut ≠ rune '*' := by
    obtain ⟨r, rfl⟩ := ho
    exact (by decide : rune '/' ≠ rune '*')
  by_cases hst : ahead (w ++ post) = rune '*'
  · cases w with
    | nil =>
      obtain ⟨e', rest, rfl⟩ := List.exists_cons_of_ne_nil hp
      obtain rfl : e' = rune '*' := hst
      rw [List.nil_append, step_comment x version hs] at h
      cases hc : comment rest with
      | none =>
        rw [hc] at h
        exact absurd (Prod.mk.inj h).1.symm he
      | some vs =>
        rw [hc] at h
        exact (not_past hp (Prod.mk.inj h).2 (comment_suffix hc)).elim
    | cons a w =>
      obtain rfl : a = rune '*' := hst
      rw [List.cons_append, step_comment x version hs] at h ⊢
      cases hc : comment (w ++ post) with
      | none =>
        rw [hc] at h
        exact absurd (Prod.mk.inj h).1.symm he
      | some vs =>
        rw [hc] at h
        obtain ⟨h₁, rfl⟩ := Prod.mk.inj h
        rw [comment_cut hp hc cut, ← h₁]
  · have hst' : ahead (w ++ cut) ≠ rune '*' := by
      cases w with
      | nil => exact hslash
      | cons a w => exact hst
    rw [step_slash x version hs hst] at h
    rw [step_slash x version hs hst', ← (Prod.mk.inj h).1,
      List.append_cancel_right (Prod.mk.inj h).2]

/-- A step that ends before `post` is taken before a comment too. -/
theorem step_cut {w post cut v : Runes} {e : Event} (ho : Opens cut) (hp : post ≠ [])
    (h : step x version (w ++ post) = (e, v ++ post)) (he : e ≠ .stop) :
    step x version (w ++ cut) = (e, v ++ cut) ∨
      ¬ x.isspace (ahead w) = true ∧ Glue x version w v post := by
  cases w with
  | nil =>
    obtain ⟨c, r, hr, hs⟩ := step_suffix x version h he
    have hr' : post = c::r := hr
    subst hr'
    exact (not_past hp rfl hs).elim
  | cons c w =>
    rw [List.cons_append] at h ⊢
    by_cases hs : x.isspace c = true
    · rw [step_space x version hs] at h ⊢
      rw [← (Prod.mk.inj h).1, List.append_cancel_right (Prod.mk.inj h).2]
      exact .inl rfl
    · by_cases hd : c = rune '/'
      · subst hd
        exact .inl (slash_cut version hs ho hp h he)
      · rw [step_token x version hs hd] at h ⊢
        have ht : (token x version c (w ++ post)).2 = v ++ post := by
          rw [← ended_snd, h]
        refine (token_cut hx version ho hp ht).imp (fun hc => ?_) fun hg => ⟨hs, hg⟩
        rw [hc]
        rcases hr : token x version c (w ++ post) with ⟨t, r⟩
        rw [hr] at h
        cases t with
        | none => exact absurd (Prod.mk.inj h).1.symm he
        | some t => exact congrArg (·, v ++ cut) (Prod.mk.inj h).1

/-- What leads to a place before `post`, with no numeral glued to `post` on the way, leads to the
same place before a comment, with the same tokens. -/
theorem leads_cut {us vs w v post cut : Runes} (ho : Opens cut) (hp : post ≠ [])
    (hl : Leads x version us vs) (hus : us = w ++ post) (hvs : vs = v ++ post)
    (hglue : ∀ w' v', Leads x version us (w' ++ post) → ¬ x.isspace (ahead w') = true →
      Glue x version w' v' post → ¬ Leads x version (v' ++ post) vs) (h : ℕ) :
    ∃ es es' h', Passes x version h us es h' vs ∧
      Passes x version h (w ++ cut) es' h' (v ++ cut) ∧
      es'.map Lexeme.mark = es.map Lexeme.mark := by
  induction hl generalizing w h with
  | refl =>
    obtain rfl : w = v := List.append_cancel_right (hus.symm.trans hvs)
    exact ⟨[], [], h, .done, .done, rfl⟩
  | @step us us' vs e hs he hl ih =>
    obtain ⟨c, r, hr, hsuf⟩ := step_suffix x version hs he
    have hsuf' : us' <:+ us := hr ▸ hsuf.trans (List.suffix_cons c r)
    obtain ⟨q, rfl, hq, -⟩ := suffix_split (hus ▸ hsuf') (hvs ▸ hl.suffix)
    rw [hus] at hs
    obtain hc | ⟨hsp, hg⟩ := step_cut hx version ho hp hs he
    · have hn : newlines (w ++ cut)-newlines (q ++ cut) = newlines us-newlines (q ++ post) := by
        rw [hus, newlines_append, newlines_append, newlines_append, newlines_append,
          Nat.add_sub_add_right, Nat.add_sub_add_right]
      have ih := fun k => ih rfl hvs (fun w' v' hw => hglue w' v' (.step (hus ▸ hs) he hw)) k
      rw [← hus] at hs
      cases e with
      | stop => exact absurd rfl he
      | space =>
        obtain ⟨es, es', h', h₁, h₂, h₃⟩ := ih h
        exact ⟨es, es', h', .space hs h₁, .space hc h₂, h₃⟩
      | comment =>
        obtain ⟨es, es', h', h₁, h₂, h₃⟩ := ih (h+(newlines us-newlines (q ++ post)))
        exact ⟨es, es', h', .comment hs h₁, .comment hc (hn ▸ h₂), h₃⟩
      | token t =>
        obtain ⟨es, es', h', h₁, h₂, h₃⟩ := ih (h+(newlines us-newlines (q ++ post)))
        exact ⟨_, _, h', .token hs h₁, .token hc (hn ▸ h₂), congrArg ((t,h) :: ·) h₃⟩
    · exact absurd hl (hglue w q (hus ▸ .refl) hsp hg)

omit hx in
theorem dot_xor {us : Runes} (h : ahead us = rune '^') (h' : ahead us.tail = rune '.') :
    (dot us).2 = us.tail.tail := by
  have hb : bitwise us = (some .tBitxor, us.tail.tail) := by
    unfold bitwise
    rw [if_neg (not_not.mpr h'), h]
    rfl
  rw [dot, hb]
  rfl

omit hx in
theorem dot_to {us : Runes} (h : ahead us = rune '.') : (dot us).2 <:+ us.tail := by
  rcases bitwise_cases us with hb | ⟨-, hb⟩
  · rw [dot, hb, orNext, ifNext, if_pos h]
    exact List.suffix_refl us.tail
  · rw [dot]
    rcases hr : bitwise us with ⟨k, vs⟩
    rw [hr] at hb
    obtain rfl : vs = us.tail.tail := hb
    cases k with
    | some k => exact List.tail_suffix us.tail
    | none => exact (single_suffix (ifNext_suffix _ _ _ _)).trans (List.tail_suffix us.tail)

theorem step_dot (hv : floats version) (us : Runes) :
    step x version (rune '.'::us) = ended (fraction x version 0 [] (rune '.'::us)) := by
  have hs : x.isspace (rune '.') = false := hx.space 46 (by decide)
  have hn : x.isdigit (rune '.') = false := hx.digit 46 (by decide)
  have hn' : ¬ x.isdigit (rune '.') = true := Bool.eq_false_iff.mp hn
  rw [step_token x version (Bool.eq_false_iff.mp hs) (by decide), token, if_neg (by decide),
    if_pos (.inr ⟨rfl, hv⟩), number, List.takeWhile_cons_of_neg hn',
    List.dropWhile_cons_of_neg hn']
  rfl

theorem step_dot_digit (hv : floats version) {us : Runes} (h : x.isdigit (ahead us) = true)
    (hus : us ≠ []) : (step x version (rune '.'::us)).2 <:+ us.tail := by
  obtain ⟨c, r, rfl⟩ := List.exists_cons_of_ne_nil hus
  rw [step_dot hx version hv, ended_snd, fraction_dot version hv, if_pos h,
    List.dropWhile_cons_of_pos (show x.isdigit c = true from h)]
  exact (exponent_suffix x version _ _ _ _).trans (List.dropWhile_suffix _)

theorem step_dot_operator (hv : floats version) {us : Runes}
    (h : x.isdigit (ahead us) = false) :
    (step x version (rune '.'::us)).2 = (dot us).2 := by
  rw [step_dot hx version hv, ended_snd, fraction_dot version hv, if_neg (Bool.eq_false_iff.mp h),
    if_pos rfl]

theorem step_xor (us : Runes) : step x version (rune '^'::us) = (.token ⟨.chr '^', .none⟩, us) := by
  have hs : x.isspace (rune '^') = false := hx.space 94 (by decide)
  have hn : x.isdigit (rune '^') = false := hx.digit 94 (by decide)
  have ha : x.isXidStart (rune '^') = false := hx.start 94 (by decide)
  have hnum : ¬ (x.isdigit (rune '^') = true ∨ rune '^' = rune '.' ∧ floats version) := by
    rintro (h | h)
    · exact Bool.eq_false_iff.mp hn h
    · exact absurd h.1 (by decide)
  have hword : ¬ (x.isXidStart (rune '^') = true ∨ rune '^' = rune '_') := by
    rintro (h | h)
    · exact Bool.eq_false_iff.mp ha h
    · exact absurd h (by decide)
  rw [step_token x version (Bool.eq_false_iff.mp hs) (by decide), token, if_neg (by decide),
    if_neg hnum, if_neg hword, if_neg (by decide)]
  rfl

omit hx in
theorem leads_next {us r post : Runes} {e : Event} (hl : Leads x version us post)
    (hs : step x version us = (e, r)) (hne : us ≠ post) : Leads x version r post := by
  cases hl with
  | refl => exact absurd rfl hne
  | step hs' he hl =>
    obtain ⟨-, rfl⟩ := Prod.mk.inj (hs.symm.trans hs')
    exact hl

omit hx in
/-- A step past the beginning of `post` does not lead there. -/
theorem not_leads {us post : Runes} (hp : post ≠ [])
    (hs : (step x version us).2 <:+ post.tail) (hne : us ≠ post) : ¬ Leads x version us post := by
  intro hl
  obtain ⟨a, ha⟩ := (leads_next version hl Prod.mk.eta.symm hne).suffix
  exact not_past hp ha.symm hs

/-- Of what can be glued to a place between two tokens, only an integer with its dot, before `|`
or `&`, is. -/
theorem glue_between {w v post : Runes} (hp : post ≠ []) (hg : Glue x version w v post)
    (hl : Leads x version (v ++ post) post) :
    floats version ∧ (ahead post = rune '|' ∨ ahead post = rune '&') ∧
      ∃ ds, ds ≠ [] ∧ (∀ d ∈ ds, x.isdigit d = true) ∧ w = ds ++ [rune '.'] := by
  have hlong : ∀ {u : Runes}, u ≠ [] → u ++ post ≠ post := fun hu h =>
    hu (List.append_cancel_right (h.trans (List.nil_append post).symm))
  have hdot : x.isdigit (rune '.') = false := hx.digit 46 (by decide)
  have hxor : x.isdigit (rune '^') = false := hx.digit 94 (by decide)
  cases hg with
  | dot hv hd hall hw hr ho =>
    subst hr
    refine ⟨hv, ?_, _, hd, hall, hw⟩
    rcases ho with ho | ho | ho | ⟨ho, ho', -⟩
    · refine absurd hl (not_leads version hp ?_ (hlong (by simp)))
      have hd : x.isdigit (ahead post) = false := by rw [ho, hdot]
      exact (step_dot_operator hx version hv hd).symm ▸ dot_to ho
    · exact .inl ho
    · exact .inr ho
    · refine absurd hl (not_leads version hp ?_ (hlong (by simp)))
      have hd : x.isdigit (ahead post) = false := by rw [ho, hxor]
      refine (step_dot_operator hx version hv hd).symm ▸ ?_
      rw [dot_xor ho ho']
      exact List.tail_suffix _
  | xor hv hr ho =>
    subst hr
    refine absurd hl (not_leads version hp ?_ (hlong (by simp)))
    have hd : x.isdigit (ahead (rune '^'::post)) = false := hxor
    have hr : (dot (rune '^'::post)).2 = post.tail := dot_xor rfl ho
    refine (step_dot_operator hx version hv hd).symm ▸ ?_
    rw [hr]
  | root hv hr ho =>
    subst hr
    have hl' := leads_next version hl (step_xor hx version (rune '.'::post)) (hlong (by simp))
    exact absurd hl' (not_leads version hp (step_dot_digit hx version hv ho hp)
      (hlong (u := [rune '.']) (by simp)))

theorem step_digits {ds : Runes} (hne : ds ≠ []) (hall : ∀ d ∈ ds, x.isdigit d = true)
    (hsp : ¬ x.isspace (ahead ds) = true) (us : Runes) :
    step x version (ds ++ rune '.'::us) =
      ended (fraction x version (valueOf x 0 ds) (textOf [] ds) (rune '.'::us)) := by
  have hdot : x.isdigit (rune '.') = false := hx.digit 46 (by decide)
  have hhash : x.isdigit (rune '#') = false := hx.digit 35 (by decide)
  have ht : (ds ++ rune '.'::us).takeWhile x.isdigit = ds := by
    rw [List.takeWhile_append_of_pos hall, List.takeWhile_cons_of_neg (by rw [hdot]; simp),
      List.append_nil]
  have hd : (ds ++ rune '.'::us).dropWhile x.isdigit = rune '.'::us := by
    rw [List.dropWhile_append_of_pos hall, List.dropWhile_cons_of_neg (by rw [hdot]; simp)]
  obtain ⟨d, ds, rfl⟩ := List.exists_cons_of_ne_nil hne
  have hdig : x.isdigit d = true := hall d List.mem_cons_self
  have hslash : d ≠ rune '/' := by
    rintro rfl
    rw [slash_digit hx] at hdig
    exact Bool.false_ne_true hdig
  have hnum : d ≠ rune '#' := by
    rintro rfl
    rw [hhash] at hdig
    exact Bool.false_ne_true hdig
  rw [List.cons_append] at ht hd ⊢
  rw [step_token x version (show ¬ x.isspace d = true from hsp) hslash, token, if_neg hnum, if_pos (.inl hdig), number, ht, hd]

/-- Before `|` or `&` the digits are an integer. -/
theorem step_integer (hv : floats version) {ds us : Runes} (hne : ds ≠ [])
    (hall : ∀ d ∈ ds, x.isdigit d = true) (hsp : ¬ x.isspace (ahead ds) = true)
    (ht : textOf [] ds ≠ []) (ha : ahead us = rune '|' ∨ ahead us = rune '&') :
    step x version (ds ++ rune '.'::us) =
      (.token ⟨.tInteger, .integer (valueOf x 0 ds)⟩, rune '.'::us) := by
  have hbar : x.isdigit (rune '|') = false := hx.digit 124 (by decide)
  have hand : x.isdigit (rune '&') = false := hx.digit 38 (by decide)
  have hd : ¬ x.isdigit (ahead us) = true := by
    rcases ha with h | h
    · rw [h, hbar]
      exact Bool.false_ne_true
    · rw [h, hand]
      exact Bool.false_ne_true
  have ho : Operator x us := Or.inr (ha.imp_right Or.inl)
  rw [step_digits hx version hne hall hsp, fraction_dot version hv, if_neg hd, if_neg ht, if_pos ho]
  rfl

/-- Before a comment the digits and the dot are a floating-point number. -/
theorem step_float (hv : floats version) {ds cut : Runes} (hne : ds ≠ [])
    (hall : ∀ d ∈ ds, x.isdigit d = true) (hsp : ¬ x.isspace (ahead ds) = true)
    (ht : textOf [] ds ≠ []) (hc : Opens cut) :
    ∃ d, step x version (ds ++ rune '.'::cut) = (.token ⟨.tFloat, .real d⟩, cut) := by
  obtain ⟨r, rfl⟩ := hc
  have ho : ¬ Operator x (rune '/'::rune '*'::r) := operator_opens ⟨r, rfl⟩
  have hd : ¬ x.isdigit (ahead (rune '/'::rune '*'::r)) = true :=
    Bool.eq_false_iff.mp (slash_digit hx)
  have he : ¬ (floats version ∧ (ahead (rune '/'::rune '*'::r) = rune 'e' ∨
      ahead (rune '/'::rune '*'::r) = rune 'E')) := fun h =>
    absurd h.2 (show ¬ (rune '/' = rune 'e' ∨ rune '/' = rune 'E') by decide)
  rw [step_digits hx version hne hall hsp, fraction_dot version hv, if_neg hd, if_neg ht, if_neg ho,
    exponent, if_neg he]
  exact ⟨_, rfl⟩

end

end LambdaMoo.Lexemes
