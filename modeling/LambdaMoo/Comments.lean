import LambdaMoo.LiteralRoundTrip
import LambdaMoo.NumberCuts
import LambdaMoo.ReaderCalls

/-!
# Comments

A comment is put between two tokens of a program. It ends for the lexer where
it should if its body ends in an even number of stars, because the character
after a star is never looked at as the first of another pair. The lines of a
comment are not counted.
-/

set_option autoImplicit false

namespace LambdaMoo.Lexemes
open LambdaMoo.Utf LambdaMoo.DbIo LambdaMoo.Parse

def runes (cs : List Char) : Runes := cs.map rune

/-- The lexer before a program text. -/
def start (text : List Char) : Lexer := {startLexer [] with client := ⟨encode text,0⟩}

def commentText (body : List Char) : List Char := '/':: '*'::(body ++ ['*', '/'])

/-- The comment and what is behind it. -/
def commented (body post : List Char) : Runes :=
  rune '/'::rune '*'::(runes body ++ rune '*'::rune '/'::runes post)

/-- The stars at the end of a body. -/
def stars (body : List Char) : ℕ := (body.reverse.takeWhile (· = '*')).length

theorem start_reads (text : List Char) : Reads 1 (start text) (runes text) := by
  refine ⟨rfl, rfl, ⟨text, 0, rfl, by simp [start, startLexer, runes]⟩, ?_⟩
  intro h
  obtain ⟨c, -, hc⟩ := List.mem_map.mp h
  exact rune_ne_eof c hc

theorem stars_cons (c : Char) (body : List Char) :
    stars (c::body) = stars body+if stars body = body.length ∧ c = '*' then 1 else 0 := by
  rw [stars, List.reverse_cons, List.takeWhile_append, List.length_reverse]
  change (if stars body = body.length then _ else _ : List Char).length = _
  by_cases hb : stars body = body.length
  · rw [if_pos hb, List.length_append, List.length_reverse, hb]
    by_cases hc : c = '*'
    · simp [hc]
    · simp [hc]
  · rw [if_neg hb, if_neg (fun h => hb h.1)]
    rfl

theorem stars_le (body : List Char) : stars body ≤ body.length := by
  rw [← List.length_reverse]
  exact (List.takeWhile_prefix _).length_le

/-- A star and the character after it do not change the parity. -/
theorem even_stars (d : Char) (body : List Char) :
    Even (stars ('*'::d::body)) ↔ Even (stars body) := by
  have hle := stars_le body
  rw [stars_cons, stars_cons d, List.length_cons]
  by_cases h : stars body = body.length ∧ d = '*'
  · rw [if_pos h, if_pos ⟨by rw [h.1], rfl⟩, Nat.even_iff, Nat.even_iff]
    omega
  · rw [if_neg h, if_neg (fun hs => by omega)]
    rfl

/-- A comment ends at its closing sequence if the stars before that are even in number, and is
read on otherwise. -/
theorem comment_body {body : List Char} (hb : ¬ ['*', '/'] <:+: body) (us : Runes) :
    comment (runes body ++ rune '*'::rune '/'::us) =
      if Even (stars body) then some us else comment us := by
  induction hk : body.length using Nat.strong_induction_on generalizing body with
  | _ k ih =>
    subst hk
    match body with
    | [] =>
      rw [if_pos (by decide)]
      exact (comment_star _ us).trans (if_pos rfl)
    | [c] =>
      by_cases hc : c = '*'
      · rw [hc, if_neg (by decide)]
        refine (comment_star _ _).trans ((if_neg (by decide)).trans ?_)
        exact comment_takes (by decide) us
      · have hs : stars [c] = 0 := by rw [stars_cons, if_neg (fun h => hc h.2)]; rfl
        rw [hs, if_pos (by decide)]
        refine (comment_takes (rune_inj.not.mpr hc) _).trans ?_
        exact (comment_star _ us).trans (if_pos rfl)
    | c::d::body =>
      have hd : ¬ ['*', '/'] <:+: d::body := fun h => hb (List.infix_cons h)
      by_cases hc : c = '*'
      · subst hc
        have hne : rune d ≠ rune '/' := by
          rw [ne_eq, rune_inj]
          rintro rfl
          exact hb ⟨[], body, rfl⟩
        have := ih body.length (by simp only [List.length_cons]; omega) (fun h => hd (List.infix_cons h)) rfl
        simp only [even_stars d body]
        rw [← this]
        exact (comment_star _ _).trans (if_neg hne)
      · have := ih (d::body).length (by simp) hd rfl
        have hs : stars (c::d::body) = stars (d::body) := by
          rw [stars_cons c, if_neg (fun h => hc h.2), Nat.add_zero]
        rw [hs, ← this]
        exact comment_takes (rune_inj.not.mpr hc) _

section
variable (x : Library) (version : DbVersion)

/-- A place where the lexer stops between two tokens. -/
def Between (pre post : Runes) : Prop := post ≠ [] ∧ Leads x version (pre ++ post) post

/-- The place behind an integer and its dot, before `|` or `&`. -/
def NumberDot (pre post : Runes) : Prop :=
  floats version ∧ (ahead post = rune '|' ∨ ahead post = rune '&') ∧
    ∃ p ds, pre = p ++ (ds ++ [rune '.']) ∧ ds ≠ [] ∧ (∀ d ∈ ds, x.isdigit d = true) ∧
      ¬ x.isspace (ahead ds) = true ∧ Leads x version (pre ++ post) (ds ++ rune '.'::post)

/-- At every token the line number is one plus the newlines before the token. -/
def Numbered (text : List Char) : Prop :=
  (marks x version (start text)).map Prod.snd =
    (lexemes x version (runes text)).map fun e =>
      1+(newlines (runes text)-newlines e.text)

/-- A comment leaves the tokens and their values as they are, and keeps the line numbers right. -/
def Transparent (pre body post : List Char) : Prop :=
  (tokens x version (start (pre ++ commentText body ++ post))).1 =
      (tokens x version (start (pre ++ post))).1 ∧
    (Numbered x version (pre ++ post) → Numbered x version (pre ++ commentText body ++ post))

theorem scan_hidden {fuel h : ℕ} {us : Runes} {e : Lexeme}
    (he : e ∈ scan x version fuel h us) : e.hidden+newlines e.text ≤ h+newlines us := by
  induction fuel generalizing h us with
  | zero => simp [scan] at he
  | succ fuel ih =>
    rw [scan] at he
    rcases hs : step x version us with ⟨ev, vs⟩
    rw [hs] at he
    cases ev with
    | stop => simp at he
    | space =>
      obtain ⟨c, r, rfl, hr⟩ := step_suffix x version hs (by simp)
      have hn := newlines_le (hr.trans (List.suffix_cons c r))
      have := ih he
      omega
    | comment =>
      obtain ⟨c, r, rfl, hr⟩ := step_suffix x version hs (by simp)
      have hn := newlines_le (hr.trans (List.suffix_cons c r))
      have := ih he
      omega
    | token t =>
      obtain ⟨c, r, rfl, hr⟩ := step_suffix x version hs (by simp)
      have hn := newlines_le (hr.trans (List.suffix_cons c r))
      rcases List.mem_cons.mp he with rfl | he
      · exact Nat.le_refl _
      · have := ih he
        omega

theorem runes_append (cs ds : List Char) : runes (cs ++ ds) = runes cs ++ runes ds :=
  List.map_append

theorem runes_inserted (pre body post : List Char) :
    runes (pre ++ commentText body ++ post) = runes pre ++ commented body post := by
  simp [runes, commentText, commented]

theorem newlines_commented (body post : List Char) :
    newlines (commented body post) = newlines (runes body)+newlines (runes post) := by
  have h₁ : ¬ rune '/' = rune '\n' := by decide
  have h₂ : ¬ rune '*' = rune '\n' := by decide
  rw [commented, newlines_cons, newlines_cons, newlines_append, newlines_cons, newlines_cons,
    if_neg h₁, if_neg h₂]
  rfl

theorem newlines_runes (cs : List Char) : newlines (runes cs) = 0 ↔ '\n' ∉ cs := by
  rw [newlines, List.count_eq_zero, runes, List.mem_map]
  constructor
  · intro h hc
    exact h ⟨_, hc, rfl⟩
  · rintro h ⟨c, hc, he⟩
    exact h (rune_inj.mp he ▸ hc)

theorem textOf_prefix (tok : Str) (cs : Runes) : tok <+: textOf tok cs := by
  induction cs generalizing tok with
  | nil => exact List.prefix_refl tok
  | cons c cs ih => exact (List.prefix_append tok _).trans (ih (streamAddUtf tok c))

theorem textOf_runes {cs : Runes} (hne : cs ≠ []) {ds : List Char} (hc : cs <:+: runes ds) :
    textOf [] cs ≠ [] := by
  obtain ⟨c, cs, rfl⟩ := List.exists_cons_of_ne_nil hne
  obtain ⟨d, -, rfl⟩ := List.mem_map.mp (hc.subset List.mem_cons_self)
  intro h
  have hp := textOf_prefix (streamAddUtf [] (rune d)) cs
  rw [show textOf (streamAddUtf [] (rune d)) cs = [] from h, streamAddUtf_char] at hp
  exact String.utf8EncodeChar_ne_nil (List.prefix_nil.mp hp)

end

section
variable {x : Library} (hx : x.Ascii) (hb : NoneBeyond x) (version : DbVersion)
include hx hb

theorem marks_start (text : List Char) : marks x version (start text) =
    (lexemes x version (runes text)).map fun e =>
      (e.token, 1+newlines (runes text)-newlines e.text-e.hidden) :=
  marks_lexemes hb (hx.space 10 (by decide)) (start_reads text)

theorem tokens_start (text : List Char) : (tokens x version (start text)).1 =
    (lexemes x version (runes text)).map Lexeme.token := by
  rw [tokens_marks, marks_start hx hb, List.map_map]
  rfl

/-- The line numbers of a text are right if no comment and no token before a token hides a
newline. -/
theorem numbered_iff (text : List Char) : Numbered x version text ↔
    ∀ e ∈ lexemes x version (runes text), e.hidden = 0 := by
  rw [Numbered, marks_start hx hb, List.map_map, List.map_inj_left]
  apply forall₂_congr
  intro e he
  have := scan_hidden x version he
  simp only [Function.comp_apply]
  omega

theorem tokens_marked {a b : List Char}
    (h : (lexemes x version (runes a)).map Lexeme.mark =
      (lexemes x version (runes b)).map Lexeme.mark) :
    (tokens x version (start a)).1 = (tokens x version (start b)).1 := by
  have ht := congrArg (List.map Prod.fst) h
  rw [List.map_map, List.map_map] at ht
  rw [tokens_start hx hb, tokens_start hx hb]
  exact ht

theorem numbered_marked {a b : List Char}
    (h : (lexemes x version (runes a)).map Lexeme.mark =
      (lexemes x version (runes b)).map Lexeme.mark) (hn : Numbered x version b) :
    Numbered x version a := by
  rw [numbered_iff hx hb] at hn ⊢
  have hall : ∀ m ∈ (lexemes x version (runes b)).map Lexeme.mark, m.2 = 0 := by
    intro m hm
    obtain ⟨e, he, rfl⟩ := List.mem_map.mp hm
    exact hn e he
  rw [← h] at hall
  intro e he
  exact hall e.mark (List.mem_map_of_mem he)

omit hb in
theorem step_commented {body : List Char} (hbody : ¬ ['*', '/'] <:+: body)
    (he : Even (stars body)) (post : List Char) :
    step x version (commented body post) = (.comment, runes post) := by
  have hs : x.isspace (rune '/') = false := hx.space 47 (by decide)
  rw [commented, step_comment x version (Bool.eq_false_iff.mp hs), comment_body hbody, if_pos he]

/-- A comment that ends where it should and hides no newline is transparent where no number is
glued to what follows. -/
theorem transparent_even {pre body post : List Char} (hbody : ¬ ['*', '/'] <:+: body)
    (he : Even (stars body)) (hn : '\n' ∉ body) (hbt : Between x version (runes pre) (runes post))
    (hnd : ¬ NumberDot x version (runes pre) (runes post)) :
    Transparent x version pre body post := by
  obtain ⟨hp, hl⟩ := hbt
  have hglue : ∀ w' v', Leads x version (runes pre ++ runes post) (w' ++ runes post) →
      ¬ x.isspace (ahead w') = true → Glue x version w' v' (runes post) →
      ¬ Leads x version (v' ++ runes post) (runes post) := by
    intro w' v' hw hsp hg hl'
    obtain ⟨hv, ha, ds, hne, hall, rfl⟩ := glue_between hx version hp hg hl'
    obtain ⟨q, hq, ⟨p, hpre⟩, -⟩ := suffix_split (v := []) hw.suffix
      (List.suffix_append _ _)
    rw [← List.append_cancel_right hq] at hpre
    refine hnd ⟨hv, ha, p, ds, hpre.symm, hne, hall, ?_, ?_⟩
    · obtain ⟨d, ds, rfl⟩ := List.exists_cons_of_ne_nil hne
      exact hsp
    · rwa [List.append_assoc] at hw
  have ho : Opens (commented body post) := ⟨_, rfl⟩
  obtain ⟨es, es', h', h₁, h₂, h₃⟩ := leads_cut hx version (v := []) ho hp hl rfl rfl hglue 0
  have hlines : newlines (commented body post)-newlines (runes post) = 0 := by
    rw [newlines_commented, (newlines_runes body).mpr hn]
    omega
  have hq := h₂.trans (.comment (step_commented hx version hbody he post) .done)
  rw [List.nil_append, hlines, List.append_nil, ← runes_inserted] at hq
  rw [← runes_append] at h₁
  have hmarks : (lexemes x version (runes (pre ++ commentText body ++ post))).map Lexeme.mark =
      (lexemes x version (runes (pre ++ post))).map Lexeme.mark := by
    rw [lexemes_passes hq, lexemes_passes h₁, List.map_append, h₃, List.map_append]
    rfl
  exact ⟨tokens_marked hx hb version hmarks, numbered_marked hx hb version hmarks⟩

omit hb in
/-- Nothing is glued to a place that an integer comes before. -/
theorem not_glued {w v ds post : Runes} (hne : ds ≠ []) (hall : ∀ d ∈ ds, x.isdigit d = true)
    (hg : Glue x version w v post) :
    ¬ Leads x version (v ++ post) (ds ++ [rune '.'] ++ post) := by
  intro hl
  obtain ⟨a, ha⟩ := hl.suffix
  rw [← List.append_assoc, ← List.append_assoc] at ha
  have hv := List.append_cancel_right ha
  cases hg with
  | dot _ _ _ _ hr _ =>
    rw [hr] at hv
    have hlen := congrArg List.length hv
    have hpos := List.length_pos_of_ne_nil hne
    simp at hlen
    omega
  | xor _ hr _ =>
    rw [hr] at hv
    have hlast := congrArg List.getLast? hv
    rw [List.getLast?_concat] at hlast
    exact absurd (Option.some.inj hlast) (show ¬ rune '.' = rune '^' by decide)
  | root _ hr _ =>
    rw [hr] at hv
    have hds : a ++ ds = [rune '^'] :=
      List.append_cancel_right (show a ++ ds ++ [rune '.'] = [rune '^'] ++ [rune '.'] from hv)
    have hxor : x.isdigit (rune '^') = false := hx.digit 94 (by decide)
    obtain ⟨d, hd⟩ := List.exists_mem_of_ne_nil ds hne
    have hm : d ∈ [rune '^'] := hds ▸ List.mem_append_right a hd
    rw [List.mem_singleton] at hm
    have := hall d hd
    rw [hm, hxor] at this
    exact Bool.false_ne_true this

/-- Before `|` or `&` and behind an integer and its dot, every comment changes the integer. -/
theorem numberDot_changes {pre body post : List Char}
    (hnd : NumberDot x version (runes pre) (runes post)) :
    ¬ Transparent x version pre body post := by
  obtain ⟨hv, ha, p, ds, hpre, hne, hall, hsp, hl⟩ := hnd
  rintro ⟨ht, -⟩
  have hp : runes post ≠ [] := by
    intro h
    rw [h] at ha
    exact absurd ha (by decide)
  have htext : textOf [] ds ≠ [] :=
    textOf_runes hne (show ds <:+: runes pre from hpre ▸ ⟨p, [rune '.'], by rw [List.append_assoc]⟩)
  have hsplit : ∀ us, ds ++ rune '.'::us = ds ++ [rune '.'] ++ us := fun us => by simp
  rw [hsplit] at hl
  have ho : Opens (commented body post) := ⟨_, rfl⟩
  obtain ⟨es, es', h', h₁, h₂, h₃⟩ := leads_cut hx version ho hp hl rfl rfl
    (fun w' v' _ _ hg => not_glued hx version hne hall hg) 0
  obtain ⟨d, hfloat⟩ := step_float hx version hv hne hall hsp htext ho
  have hint := step_integer hx version hv hne hall hsp htext ha
  rw [← hsplit] at h₁ h₂
  rw [← runes_inserted] at h₂
  rw [← runes_append] at h₁
  rw [tokens_start hx hb, tokens_start hx hb, lexemes_passes h₂, lexemes_passes h₁, scan, hfloat,
    scan, hint, List.map_append, List.map_append] at ht
  have hes : es'.map Lexeme.token = es.map Lexeme.token := by
    have := congrArg (List.map Prod.fst) h₃
    rwa [List.map_map, List.map_map] at this
  rw [hes] at ht
  have hkind := congrArg (fun t : Token => t.kind) (List.cons.inj (List.append_cancel_left ht)).1
  exact absurd hkind (show ¬ Kind.tFloat = Kind.tInteger by decide)

omit hb in
theorem step_one : ∃ t, step x version (runes ['1']) = (.token t, []) := by
  have hs : x.isspace (rune '1') = false := hx.space 49 (by decide)
  have hd : x.isdigit (rune '1') = true := hx.digit 49 (by decide)
  have hdot : ¬ (floats version ∧ ahead [] = rune '.') := fun h => absurd h.2 (by decide)
  have he : ¬ (floats version ∧ (ahead [] = rune 'e' ∨ ahead [] = rune 'E')) :=
    fun h => absurd h.2 (by decide)
  change ∃ t, step x version [rune '1'] = (.token t, [])
  rw [step_token x version (Bool.eq_false_iff.mp hs) (by decide), token, if_neg (by decide),
    if_pos (.inl hd), number, List.takeWhile_cons_of_pos hd, List.dropWhile_cons_of_pos hd,
    List.dropWhile_nil, fraction, if_neg hdot, exponent, if_neg he]
  exact ⟨_, rfl⟩

omit hb in
theorem scan_one : ∃ t, ∀ fuel hidden, scan x version (fuel+2) hidden (runes ['1']) =
    [⟨t, hidden, runes ['1']⟩] := by
  obtain ⟨t, ht⟩ := step_one hx version
  refine ⟨t, fun fuel hidden => ?_⟩
  rw [scan, ht]
  rfl

/-- A body is transparent before a single numeral only if its comment ends where it should and
hides no newline. -/
theorem transparent_one {body : List Char} (hbody : ¬ ['*', '/'] <:+: body)
    (h : Transparent x version [] body ['1']) : Even (stars body) ∧ '\n' ∉ body := by
  obtain ⟨t, ht⟩ := scan_one hx version
  obtain ⟨htok, hnum⟩ := h
  have hs : x.isspace (rune '/') = false := hx.space 47 (by decide)
  have hone : lexemes x version (runes ([] ++ ['1'])) = [⟨t, 0, runes ['1']⟩] := ht 0 0
  have hrunes : runes ([] ++ commentText body ++ ['1']) = commented body ['1'] :=
    runes_inserted [] body ['1']
  have heven : Even (stars body) := by
    by_contra he
    have hstep : step x version (commented body ['1']) = (.stop, []) := by
      rw [commented, step_comment x version (Bool.eq_false_iff.mp hs), comment_body hbody, if_neg he]
      rfl
    rw [tokens_start hx hb, tokens_start hx hb, hrunes, hone, lexemes, scan, hstep] at htok
    exact absurd htok (by simp)
  refine ⟨heven, (newlines_runes body).mp ?_⟩
  have hq : Passes x version 0 (commented body ['1']) []
      (0+(newlines (commented body ['1'])-newlines (runes ['1']))) (runes ['1']) :=
    .comment (step_commented hx version hbody heven ['1']) .done
  have hn : Numbered x version ([] ++ ['1']) := by
    rw [numbered_iff hx hb, hone]
    simp
  have hn' := (numbered_iff hx hb version _).mp (hnum hn)
  rw [hrunes, lexemes_passes hq, show (runes ['1']).length+1 = 0+2 from rfl, ht] at hn'
  have := hn' _ (List.mem_singleton.mpr rfl)
  dsimp only at this
  rw [newlines_commented] at this
  omega

/-- The line numbers of a text are right where no comment and no token before another token hides
a newline; a comment is transparent at every place between two tokens, but for those behind an
integer and its dot, if and only if its body ends in an even number of stars and has no
newline. -/
theorem comments_transparent :
    (∀ text, Numbered x version text ↔ ∀ e ∈ lexemes x version (runes text), e.hidden = 0) ∧
      ∀ body, ¬ ['*', '/'] <:+: body →
        ((∀ pre post, Between x version (runes pre) (runes post) →
            (Transparent x version pre body post ↔
              ¬ NumberDot x version (runes pre) (runes post))) ↔
          Even (stars body) ∧ '\n' ∉ body) := by
  refine ⟨numbered_iff hx hb version, fun body hbody => ⟨fun h => ?_, fun h pre post hbt => ?_⟩⟩
  · have hnd : ¬ NumberDot x version (runes []) (runes ['1']) := by
      rintro ⟨-, ha, -⟩
      exact absurd ha (show ¬ (rune '1' = rune '|' ∨ rune '1' = rune '&') by decide)
    exact transparent_one hx hb version hbody
      ((h [] ['1'] ⟨by simp [runes], .refl⟩).mpr hnd)
  · constructor
    · intro ht hnd
      exact numberDot_changes hx hb version hnd ht
    · exact transparent_even hx hb version hbody h.1 h.2 hbt

end

theorem asciiLibrary_beyond : NoneBeyond asciiLibrary := ⟨rfl, rfl⟩

theorem comments_transparent_ascii :
    asciiLibrary.Ascii ∧ NoneBeyond asciiLibrary ∧
      (∀ text, Numbered asciiLibrary currentVersion text ↔
        ∀ e ∈ lexemes asciiLibrary currentVersion (runes text), e.hidden = 0) ∧
      ∀ body, ¬ ['*', '/'] <:+: body →
        ((∀ pre post, Between asciiLibrary currentVersion (runes pre) (runes post) →
            (Transparent asciiLibrary currentVersion pre body post ↔
              ¬ NumberDot asciiLibrary currentVersion (runes pre) (runes post))) ↔
          Even (stars body) ∧ '\n' ∉ body) :=
  ⟨asciiLibrary_ascii, asciiLibrary_beyond,
    comments_transparent asciiLibrary_ascii asciiLibrary_beyond currentVersion⟩

/-- The star of the body takes the star that should close the comment; and a line of a comment is
not counted. -/
theorem star_swallows :
    (tokens asciiLibrary currentVersion (start ['1'])).1 = [⟨.tInteger, .integer 1⟩] ∧
      (tokens asciiLibrary currentVersion (start (commentText ['*'] ++ ['1']))).1 = [] ∧
      marks asciiLibrary currentVersion (start (commentText ['\n'] ++ ['1'])) =
        [(⟨.tInteger, .integer 1⟩, 1)] := by
  decide

end LambdaMoo.Lexemes
