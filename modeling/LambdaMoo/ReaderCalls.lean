import LambdaMoo.ReaderNumbers

/-!
# Reading lexemes

One call of `yylex` passes white space and comments and reads the token after
them. The tokens of a run are those of the lexemes of its text, and the line
number after each counts the newlines before it that no comment and no token
hides.
-/

set_option autoImplicit false

namespace LambdaMoo.Lexemes
open LambdaMoo.Utf LambdaMoo.DbIo LambdaMoo.Parse

section
variable {x : Library} (hx : NoneBeyond x)
include hx

theorem lexCont_held {n : ℕ} {L : Lexer} {us : Runes} (h : Reads n L us) {fuel : ℕ}
    (hf : us.length < fuel) (tok : Str) :
    ∃ c' L', lexCont x fuel tok L = (textOf tok (us.takeWhile (inWord x)), c', L') ∧
      Held n c' L' (us.dropWhile (inWord x)) := by
  induction us generalizing L fuel tok with
  | nil =>
    obtain ⟨fuel, rfl⟩ : ∃ m, fuel = m+1 := ⟨fuel-1, by simp at hf; omega⟩
    have hc := h.held
    have he : (lexGetc L).1 = EOF := hc.char
    refine ⟨_, _, ?_, hc⟩
    rw [lexCont]
    simp only [he, hx.cont, show ¬ EOF = rune '_' by decide, or_false, Bool.false_eq_true, if_false]
    rfl
  | cons d us ih =>
    obtain ⟨fuel, rfl⟩ : ∃ m, fuel = m+1 := ⟨fuel-1, by simp at hf; omega⟩
    have hc := h.held
    have he : (lexGetc L).1 = d := hc.char
    have hw : (x.isXidCont d = true ∨ d = rune '_') ↔ inWord x d = true := by
      rw [inWord, Bool.or_eq_true, decide_eq_true_iff]
    rw [lexCont]
    simp only [he, hw]
    by_cases hd : inWord x d = true
    · obtain ⟨c', L', hm, hL'⟩ := ih hc.rest (Nat.lt_of_succ_lt_succ hf) (streamAddUtf tok d)
      rw [if_pos hd, List.takeWhile_cons_of_pos hd, List.dropWhile_cons_of_pos hd]
      exact ⟨c', L', hm, hL'⟩
    · rw [if_neg hd, List.takeWhile_cons_of_neg hd, List.dropWhile_cons_of_neg hd]
      exact ⟨_, _, rfl, he ▸ hc⟩

theorem lexWord_gives {n : ℕ} (version : DbVersion) {L : Lexer} {us : Runes} (h : Reads n L us)
    (c : ℤ) : Gives n (lexWord x version c L) (word x version c us) := by
  have hl : us.length < L.left := by
    have := h.left
    omega
  obtain ⟨c', L', he, hL'⟩ := lexCont_held hx h hl (streamAddUtf [] c)
  unfold lexWord word wordToken
  simp only [he]
  generalize textOf (streamAddUtf [] c) (us.takeWhile (inWord x)) = w
  cases findKeyword w with
  | none => exact ⟨rfl, hL'.back⟩
  | some k =>
    dsimp only
    by_cases hv : DbVersion.num k.version ≤ DbVersion.num version
    · rw [if_pos hv, if_pos hv]
      exact ⟨rfl, hL'.back⟩
    · rw [if_neg hv, if_neg hv]
      exact ⟨rfl, hL'.back.renamed w⟩

theorem lexFrom_gives {n : ℕ} (version : DbVersion) {c : ℤ} {L : Lexer} {us : Runes}
    (h : Held n c L (c::us)) : Gives n (lexFrom x version c L) (token x version c us) := by
  unfold lexFrom token
  split_ifs
  · exact lexObject_gives hx h.rest
  · exact lexNumber_gives hx version h
  · exact lexWord_gives hx version h.rest c
  · have hl : us.length < L.left := by
      have := h.rest.left
      rw [List.tail_cons] at this
      omega
    have hc := lexChars_gives h.rest hl []
    exact ⟨congrArg (fun s => (some ⟨.tString, .string s⟩ : Option Token)) hc.1, hc.2⟩
  · exact lexOther_gives h.rest c

end

section
variable {x : Library}

/-- White space is read with its newlines. -/
theorem skipSpace_held (hn : x.isspace (rune '\n') = true) {n : ℕ} {L : Lexer} {us : Runes}
    (h : Reads n L us) {fuel : ℕ} (hf : us.length < fuel) :
    ∃ c' L', skipSpace x fuel L = (c', L') ∧
      Held (n+(newlines us-newlines (us.dropWhile x.isspace))) c' L'
        (us.dropWhile x.isspace) := by
  induction us generalizing n L fuel with
  | nil =>
    obtain ⟨fuel, rfl⟩ : ∃ m, fuel = m+1 := ⟨fuel-1, by simp at hf; omega⟩
    have hc := h.held
    have he : (lexGetc L).1 = EOF := hc.char
    refine ⟨_, _, ?_, hc⟩
    rw [skipSpace]
    simp only [he, ne_eq, not_true_eq_false, false_and, if_false, show ¬ EOF = rune '\n' by decide]
  | cons c us ih =>
    obtain ⟨fuel, rfl⟩ : ∃ m, fuel = m+1 := ⟨fuel-1, by simp at hf; omega⟩
    have hc := h.held
    have he : (lexGetc L).1 = c := hc.char
    have hne : c ≠ EOF := fun hx => hc.real (hx ▸ List.mem_cons_self)
    rw [skipSpace]
    simp only [he]
    by_cases hs : x.isspace c = true
    · have hle := newlines_le (List.dropWhile_suffix x.isspace (l := us))
      rw [if_pos ⟨hne, hs⟩, List.dropWhile_cons_of_pos hs, newlines_cons]
      by_cases hl : c = rune '\n'
      · obtain ⟨c', L', hr, hL'⟩ := ih (hc.rest.lines 1) (Nat.lt_of_succ_lt_succ hf)
        rw [if_pos hl, if_pos hl]
        refine ⟨c', L', hr, ?_⟩
        rwa [show n+(newlines us+1-newlines (us.dropWhile x.isspace)) =
          n+1+(newlines us-newlines (us.dropWhile x.isspace)) by omega]
      · obtain ⟨c', L', hr, hL'⟩ := ih hc.rest (Nat.lt_of_succ_lt_succ hf)
        rw [if_neg hl, if_neg hl]
        exact ⟨c', L', hr, hL'⟩
    · have hl : ¬ c = rune '\n' := by
        rintro rfl
        exact hs hn
      rw [if_neg (fun hx => hs hx.2), if_neg hl, List.dropWhile_cons_of_neg hs, Nat.sub_self]
      exact ⟨_, _, rfl, he ▸ hc⟩

variable {version : DbVersion}

/-- A call of `yylex` before `us` passes white space and comments and takes the step after them;
`k` counts the newlines that are behind the lexer or ahead of it. -/
def Call (x : Library) (version : DbVersion) (k h : ℕ) (us : Runes) (r : Option Token × Lexer) :
    Prop :=
  ∃ h' vs, Passes x version h us [] h' vs ∧
    ((∃ t ws m, step x version vs = (.token t, ws) ∧ r.1 = some t ∧ Reads m r.2 ws ∧
        m+h'+newlines vs = k) ∨
      (step x version vs).1 = .stop ∧ r.1 = none)

theorem Call.after {k h h' : ℕ} {us vs : Runes} {r : Option Token × Lexer}
    (hp : Passes x version h us [] h' vs) (hc : Call x version k h' vs r) :
    Call x version k h us r := by
  obtain ⟨h'', ws, hq, hr⟩ := hc
  exact ⟨h'', ws, hp.trans hq, hr⟩

theorem call_token (hx : NoneBeyond x) {n h : ℕ} {c : ℤ} {L : Lexer} {us : Runes}
    (hL : Held n c L (c::us)) (hs : ¬ x.isspace c = true) (hd : ¬ c = rune '/') :
    Call x version (n+h+newlines (c::us)) h (c::us) (lexFrom x version c L) := by
  have hstep := step_token x version hs hd us
  obtain ⟨ht, hr⟩ := lexFrom_gives hx version hL
  refine ⟨h, c::us, .done, ?_⟩
  rw [hstep, ht]
  rcases htok : token x version c us with ⟨t, vs⟩
  rw [htok] at hr
  cases t with
  | none => exact .inr ⟨rfl, rfl⟩
  | some t => exact .inl ⟨t, vs, n, rfl, rfl, hr, rfl⟩

theorem yylexFuel_call (hx : NoneBeyond x) (hn : x.isspace (rune '\n') = true)
    {fuel n h : ℕ} {L : Lexer} {us : Runes} (hL : Reads n L us) (hf : us.length < fuel) :
    Call x version (n+h+newlines us) h us (yylexFuel x version fuel L) := by
  induction fuel generalizing n h L us with
  | zero => exact absurd hf (Nat.not_lt_zero _)
  | succ fuel ih =>
    have hlt : us.length < L.left := by
      have := hL.left
      omega
    obtain ⟨c', L', hr, hL'⟩ := skipSpace_held hn hL hlt
    have hle := newlines_le (List.dropWhile_suffix x.isspace (l := us))
    have hlen := (List.dropWhile_suffix x.isspace (l := us)).length_le
    have hsp := List.head?_dropWhile_not x.isspace us
    apply Call.after (passes_spaces h us)
    generalize us.dropWhile x.isspace = r at hL' hle hlen hsp ⊢
    rw [yylexFuel]
    simp only [hr]
    cases r with
    | nil =>
      refine ⟨h, [], .done, .inr ⟨rfl, ?_⟩⟩
      rw [if_pos (show c' = EOF from hL'.char)]
    | cons c r =>
      obtain rfl : c' = c := hL'.char
      have hne : c' ≠ EOF := fun hx => hL'.real (hx ▸ List.mem_cons_self)
      have hs : ¬ x.isspace c' = true := by simpa using hsp
      have hk : n+h+newlines us = n+(newlines us-newlines (c'::r))+h+newlines (c'::r) := by omega
      rw [if_neg hne, hk]
      by_cases hd : c' = rune '/'
      · have hg := hL'.next
        have hg' : (lexGetc L').1 = ahead r := hg.char
        rw [if_pos hd, hg']
        by_cases hst : ahead r = rune '*'
        · have hcl : r.tail.length < (lexGetc L').2.left := by
            have := hg.rest.left
            rw [List.tail_cons] at this
            omega
          obtain ⟨hc₁, hc₂⟩ := skipComment_reads hg.rest hcl
          rw [List.tail_cons] at hc₁ hc₂
          rw [if_pos hst, hc₁]
          cases hcm : comment r.tail with
          | none =>
            refine ⟨h, c'::r, .done, .inr ⟨?_, rfl⟩⟩
            rw [step, if_neg hs, if_pos hd, if_pos hst, hcm]
          | some vs =>
            have hstep : step x version (c'::r) = (.comment, vs) := by
              rw [step, if_neg hs, if_pos hd, if_pos hst, hcm]
            have hp : Passes x version h (c'::r) [] (h+(newlines (c'::r)-newlines vs)) vs :=
              .comment hstep .done
            have hvl := step_length x version hstep (by simp)
            have hvn := newlines_le hp.suffix
            have hcall := ih (h := h+(newlines (c'::r)-newlines vs)) (hc₂ vs hcm) (by omega)
            rw [show n+(newlines us-newlines (c'::r))+h+newlines (c'::r) =
              n+(newlines us-newlines (c'::r))+(h+(newlines (c'::r)-newlines vs))+newlines vs
                by omega]
            exact .after hp hcall
        · rw [if_neg hst]
          refine ⟨h, c'::r, .done, .inl ⟨⟨.chr '/', .none⟩, r, _, ?_, rfl, hg' ▸ hg.back, rfl⟩⟩
          rw [step, if_neg hs, if_pos hd, if_neg hst]
      · rw [if_neg hd]
        exact call_token hx hL' hs hd

/-- The calls of `yylex` that return a token, each with the line number after it. -/
def marksFuel (x : Library) (version : DbVersion) : ℕ → Lexer → List (Token × ℕ)
  | 0, _ => []
  | fuel+1, L =>
    match yylex x version L with
    | (none, _) => []
    | (some t, L) => (t, L.lineno)::marksFuel x version fuel L

def marks (x : Library) (version : DbVersion) (L : Lexer) : List (Token × ℕ) :=
  marksFuel x version L.left L

theorem tokens_marks (L : Lexer) :
    (tokens x version L).1 = (marks x version L).map Prod.fst := by
  rw [tokens, marks]
  generalize L.left = fuel
  induction fuel generalizing L with
  | zero => rfl
  | succ fuel ih =>
    rw [tokensFuel, marksFuel]
    rcases yylex x version L with ⟨t, L'⟩
    cases t with
    | none => rfl
    | some t => exact congrArg (t :: ·) (ih L')

theorem marksFuel_scan (hx : NoneBeyond x) (hn : x.isspace (rune '\n') = true)
    {fuel fuel' n h k : ℕ} {L : Lexer} {us : Runes} (hL : Reads n L us) (hf : us.length < fuel)
    (hf' : us.length < fuel') (hk : n+h+newlines us = k) :
    marksFuel x version fuel L =
      (scan x version fuel' h us).map fun e => (e.token, k-newlines e.text-e.hidden) := by
  induction fuel generalizing fuel' n h L us with
  | zero => exact absurd hf (Nat.not_lt_zero _)
  | succ fuel ih =>
    have hleft : us.length < L.left := by
      have := hL.left
      omega
    have hcall : Call x version (n+h+newlines us) h us (yylexFuel x version L.left L) :=
      yylexFuel_call hx hn hL hleft
    obtain ⟨h', vs, hp, hres⟩ := hcall
    have hlen := hp.suffix.length_le
    rw [scan_passes hp hf' (Nat.lt_succ_self vs.length), List.nil_append, marksFuel, yylex]
    rcases hres with ⟨t, ws, m, hstep, ht, hr, hm⟩ | ⟨hstep, ht⟩
    · have hl := step_length x version hstep (by simp)
      have hp' : Passes x version h' vs _ (h'+(newlines vs-newlines ws)) ws :=
        .token hstep .done
      have hws := newlines_le hp'.suffix
      rcases hy : yylexFuel x version L.left L with ⟨t', L'⟩
      rw [hy] at ht hr
      obtain rfl : t' = some t := ht
      have hrest := ih hr (show ws.length < fuel by omega) hl
        (show m+(h'+(newlines vs-newlines ws))+newlines ws = k by omega)
      rw [scan, hstep, List.map_cons, ← hrest]
      have hline : L'.lineno = k-newlines vs-h' := by
        rw [hr.line]
        omega
      dsimp only
      rw [hline]
    · rcases hy : yylexFuel x version L.left L with ⟨t', L'⟩
      rw [hy] at ht
      obtain rfl : t' = none := ht
      rcases hs : step x version vs with ⟨e, ws⟩
      rw [hs] at hstep
      obtain rfl : e = .stop := hstep
      rw [scan, hs]
      rfl

/-- The line number at each token counts the newlines before it that are not hidden. -/
theorem marks_lexemes (hx : NoneBeyond x) (hn : x.isspace (rune '\n') = true) {n : ℕ}
    {L : Lexer} {us : Runes} (hL : Reads n L us) :
    marks x version L = (lexemes x version us).map fun e =>
      (e.token, n+newlines us-newlines e.text-e.hidden) := by
  have hl := hL.left
  exact marksFuel_scan hx hn hL (by omega) (Nat.lt_succ_self _) rfl

end

end LambdaMoo.Lexemes
