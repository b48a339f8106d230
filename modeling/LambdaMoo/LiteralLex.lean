import LambdaMoo.Literal
import Mathlib.Data.Bool.AllAny

/-!
# The tokens of a literal

The text of a literal, between white space and a delimiter, is lexed into the
tokens that its value spells. A negative integer is two tokens, and the
smallest one survives because both the digits and the minus sign wrap around.
-/

set_option autoImplicit false

namespace LambdaMoo.Parse
open LambdaMoo.Utf LambdaMoo.DbIo LambdaMoo.Decimal

def chrToken (ch : Char) : Token := ⟨.chr ch, .none⟩

mutual
def literalTokens : Var → List Token
  | .int m =>
    if m.toInt < 0 then [chrToken '-', ⟨.tInteger, .integer (-m)⟩] else [⟨.tInteger, .integer m⟩]
  | .obj m => [⟨.tObject, .object m⟩]
  | .str s => [⟨.tString, .string s⟩]
  | .err e => [⟨.tError, .error e⟩]
  | .list vs => chrToken '{'::(elementTokens [] vs ++ [chrToken '}'])
  | _ => []
def elementTokens (sep : List Token) : List Var → List Token
  | [] => []
  | v::vs => sep ++ literalTokens v ++ elementTokens [chrToken ','] vs
end

/-- Calls of `yylex` that return these tokens. -/
inductive Lexes (x : Library) (version : DbVersion) : Lexer → List Token → Lexer → Prop
  | nil {L : Lexer} : Lexes x version L [] L
  | cons {L L₁ L' : Lexer} {t : Token} {ts : List Token} (h : yylex x version L = (some t, L₁))
      (hs : Lexes x version L₁ ts L') : Lexes x version L (t::ts) L'

section
variable {x : Library} {version : DbVersion}

theorem Lexes.append {L L₁ L' : Lexer} {ts us : List Token} (h : Lexes x version L ts L₁)
    (h' : Lexes x version L₁ us L') : Lexes x version L (ts ++ us) L' := by
  induction h with
  | nil => exact h'
  | cons h _ ih => exact .cons h (ih h')

theorem Lexes.one {L L' : Lexer} {t : Token} (h : yylex x version L = (some t, L')) :
    Lexes x version L [t] L' := .cons h .nil

theorem Lexes.tokensFuel {L L₁ L' : Lexer} {ts : List Token} (h : Lexes x version L ts L₁)
    (he : yylex x version L₁ = (none, L')) {fuel : ℕ} (hf : ts.length < fuel) :
    tokensFuel x version fuel L = (ts, L') := by
  induction h generalizing fuel with
  | nil =>
    obtain ⟨fuel, rfl⟩ : ∃ m, fuel = m+1 := ⟨fuel-1, by simp at hf; omega⟩
    simp only [Parse.tokensFuel, he]
  | cons h _ ih =>
    obtain ⟨fuel, rfl⟩ : ∃ m, fuel = m+1 := ⟨fuel-1, by simp at hf; omega⟩
    simp only [Parse.tokensFuel, h, ih he (by simp at hf; omega)]

end

theorem yylex_from {x : Library} {version : DbVersion} {L L' : Lexer} {ch : ℤ}
    (h : skipSpace x L.left L = (ch, L')) (he : ch ≠ EOF) (hs : ch ≠ rune '/') :
    yylex x version L = lexFrom x version ch L' := by
  change yylexFuel x version (L.unget.length+L.client.bytes.length+1+1) L = _
  rw [yylexFuel]
  dsimp only
  rw [h, if_neg he, if_neg hs]

theorem yylex_eof {x : Library} {version : DbVersion} {L L' : Lexer}
    (h : skipSpace x L.left L = (EOF, L')) : yylex x version L = (none, L') := by
  change yylexFuel x version (L.unget.length+L.client.bytes.length+1+1) L = _
  rw [yylexFuel]
  dsimp only
  rw [h, if_pos rfl]

section
variable {x : Library} (hx : x.Ascii) (version : DbVersion)
include hx

theorem skipSpace_spaces {sp : List Byte} (hsp : ∀ b ∈ sp, b = 32) {b : Byte}
    (hb : b.toNat < 128) (hn : isspace b = false) {bs : List Byte} {fuel : ℕ}
    (hf : sp.length < fuel) {L : Lexer} (hL : Reading L (sp ++ b::bs)) :
    ∃ L', skipSpace x fuel L = (int b, L') ∧ Fresh L' bs := by
  induction sp generalizing fuel L with
  | nil =>
    obtain ⟨fuel, rfl⟩ : ∃ m, fuel = m+1 := ⟨fuel-1, by simp at hf; omega⟩
    obtain ⟨hc, hL'⟩ := Reading.getc hL hb
    have hnl : ¬ int b = rune '\n' := by
      intro h
      have h10 : b = 10 := UInt8.toNat_inj.mp (int_eq_rune.mp h)
      rw [h10] at hn
      exact absurd hn (by decide)
    refine ⟨(lexGetc L).2, ?_, hL'⟩
    simp only [skipSpace, hc, if_neg hnl, hx.space b hb, hn, Bool.false_eq_true, and_false,
      if_false]
  | cons e sp ih =>
    obtain ⟨fuel, rfl⟩ : ∃ m, fuel = m+1 := ⟨fuel-1, by simp at hf; omega⟩
    obtain rfl : e = 32 := hsp e List.mem_cons_self
    obtain ⟨hc, hL'⟩ := Reading.getc hL (by decide)
    obtain ⟨L', h, hfr⟩ := ih (fun d hd => hsp d (List.mem_cons_of_mem _ hd))
      (by simp at hf; omega) (.fresh hL')
    have hgo : int 32 ≠ EOF ∧ x.isspace (int 32) = true :=
      ⟨by decide, (hx.space 32 (by decide)).trans rfl⟩
    have hnl : ¬ int 32 = rune '\n' := by decide
    refine ⟨L', ?_, hfr⟩
    simp only [skipSpace, hc, if_neg hnl, if_pos hgo, h]

/-- The next token starts at the first byte that is no space. -/
theorem yylex_spaces {sp : List Byte} (hsp : ∀ b ∈ sp, b = 32) {b : Byte} (hb : b.toNat < 128)
    (hn : isspace b = false) (hslash : b ≠ 47) {bs : List Byte} {L : Lexer}
    (hL : Reading L (sp ++ b::bs)) :
    ∃ L', yylex x version L = lexFrom x version (int b) L' ∧ Fresh L' bs := by
  have hf : sp.length < L.left := by
    rw [hL.left, List.length_append]
    omega
  obtain ⟨L', h, hL'⟩ := skipSpace_spaces hx hsp hb hn hf hL
  have h47 : ¬ int b = rune '/' := fun he => hslash (UInt8.toNat_inj.mp (int_eq_rune.mp he))
  exact ⟨L', yylex_from h (int_ne b) h47, hL'⟩

theorem yylex_end {L : Lexer} (hL : Reading L [10]) :
    ∃ L', yylex x version L = (none, L') ∧ L'.errors = [] := by
  obtain ⟨hc, hL₁⟩ := hL.getc (by decide)
  have hL₂ : Fresh {(lexGetc L).2 with lineno := (lexGetc L).2.lineno+1} [] :=
    ⟨hL₁.unget, hL₁.state, hL₁.bytes, hL₁.quiet⟩
  obtain ⟨he, hL₃⟩ := hL₂.eof
  have hgo : int 10 ≠ EOF ∧ x.isspace (int 10) = true :=
    ⟨by decide, (hx.space 10 (by decide)).trans rfl⟩
  have hleft : L.left = 3 := hL.left
  have h₁ : skipSpace x 3 L =
      skipSpace x 2 {(lexGetc L).2 with lineno := (lexGetc L).2.lineno+1} := by
    rw [skipSpace]
    dsimp only
    rw [hc, if_pos (show int 10 = rune '\n' from rfl), if_pos hgo]
  refine ⟨_, yylex_eof ?_, hL₃.quiet⟩
  rw [hleft, h₁, skipSpace]
  dsimp only
  rw [he, if_neg (show ¬ EOF = rune '\n' by decide), if_neg (fun hc => hc.1 rfl)]

theorem lexFrom_digit {b : Byte} (hb : isDigit b = true) (L : Lexer) :
    lexFrom x version (int b) L = lexNumber x version (int b) L := by
  have h := isDigit_toNat hb
  have hd : x.isdigit (int b) = true := (hx.digit b (by omega)).trans hb
  have h35 : ¬ int b = rune '#' := by
    rw [int_eq_rune]
    change ¬ b.toNat = 35
    omega
  rw [lexFrom, if_neg h35, if_pos (.inl hd)]

theorem lexFrom_alpha {b : Byte} (hb : isAlpha b = true) (L : Lexer) :
    lexFrom x version (int b) L = lexWord x version (int b) L := by
  have h : 65 ≤ b.toNat ∧ b.toNat ≤ 122 := by
    simp only [isAlpha, Bool.or_eq_true, Bool.and_eq_true, decide_eq_true_eq] at hb
    omega
  have hd : isDigit b = false := by
    simp only [isDigit, Bool.and_eq_false_iff, decide_eq_false_iff_not]
    omega
  have h35 : ¬ int b = rune '#' := by
    rw [int_eq_rune]
    change ¬ b.toNat = 35
    omega
  have h46 : ¬ int b = rune '.' := by
    rw [int_eq_rune]
    change ¬ b.toNat = 46
    omega
  rw [lexFrom, if_neg h35, if_neg (by simp [hx.digit b (by omega), hd, h46]),
    if_pos (.inl ((hx.start b (by omega)).trans hb))]

theorem lexFrom_quote (L : Lexer) : lexFrom x version (int 34) L = lexString L := by
  have hd : x.isdigit (int 34) = false := hx.digit 34 (by decide)
  have hs : x.isXidStart (int 34) = false := hx.start 34 (by decide)
  have h35 : ¬ int 34 = rune '#' := by decide
  have h46 : ¬ int 34 = rune '.' := by decide
  have h95 : ¬ int 34 = rune '_' := by decide
  have h34 : int 34 = rune '"' := rfl
  rw [lexFrom, if_neg h35, if_neg (by simp [hd, h46]), if_neg (by simp [hs, h95]), if_pos h34]

/-- The punctuation of literals. -/
theorem lexFrom_punct {b : Byte} (hb : b ∈ ([44, 45, 59, 123, 125] : List Byte)) (L : Lexer) :
    lexFrom x version (int b) L = (some (chrToken (Char.ofNat b.toNat)), L) := by
  have hall : ∀ b ∈ ([44, 45, 59, 123, 125] : List Byte), b.toNat < 127 ∧ isDigit b = false ∧
      isAlpha b = false := List.all_iff_forall_prop.mp (by decide)
  have hrunes : ∀ b ∈ ([44, 45, 59, 123, 125] : List Byte),
      (¬ int b = rune '#' ∧ ¬ int b = rune '.' ∧ ¬ int b = rune '_' ∧ ¬ int b = rune '"' ∧
        ¬ int b = rune '>') ∧
      ¬ int b = rune '<' ∧ ¬ int b = rune '=' ∧ ¬ int b = rune '!' ∧ ¬ int b = rune '|' ∧
        ¬ int b = rune '&' := List.all_iff_forall_prop.mp (by decide)
  obtain ⟨h127, hd, ha⟩ := hall b hb
  obtain ⟨⟨h₁, h₂, h₃, h₄, h₅⟩, h₆, h₇, h₈, h₉, h₁₀⟩ := hrunes b hb
  have hd' : x.isdigit (int b) = false := (hx.digit b (by omega)).trans hd
  have hs' : x.isXidStart (int b) = false := (hx.start b (by omega)).trans ha
  have hlt : int b < 127 := by
    rw [int]
    omega
  rw [lexFrom, if_neg h₁, if_neg (by simp [hd', h₂]), if_neg (by simp [hs', h₃]), if_neg h₄,
    lexOther, if_neg h₅, if_neg h₆, if_neg h₇, if_neg h₈, if_neg h₉, if_neg h₁₀, if_neg h₂,
    if_pos hlt]
  rfl

theorem lexes_punct {sp : List Byte} (hsp : ∀ b ∈ sp, b = 32) {b : Byte}
    (hb : b ∈ ([44, 45, 59, 123, 125] : List Byte)) {bs : List Byte} {L : Lexer}
    (hL : Reading L (sp ++ b::bs)) :
    ∃ L', yylex x version L = (some (chrToken (Char.ofNat b.toNat)), L') ∧ Fresh L' bs := by
  have hall : ∀ b ∈ ([44, 45, 59, 123, 125] : List Byte), b.toNat < 128 ∧ isspace b = false ∧
      b ≠ 47 := List.all_iff_forall_prop.mp (by decide)
  obtain ⟨h128, hn, h47⟩ := hall b hb
  obtain ⟨L', h, hL'⟩ := yylex_spaces hx version hsp h128 hn h47 hL
  exact ⟨L', h.trans (lexFrom_punct hx version hb L'), hL'⟩

theorem lexes_digits {sp : List Byte} (hsp : ∀ b ∈ sp, b = 32) {d : Byte} (hd : Ends d) (m : ℕ)
    {bs : List Byte} {L : Lexer} (hL : Reading L (sp ++ (printNat m ++ d::bs))) :
    ∃ L', yylex x version L = (some ⟨.tInteger, .integer (BitVec.ofNat 64 m)⟩, L') ∧
      Reading L' (d::bs) := by
  obtain ⟨b, rest, hb, hdig⟩ := printNat_cons m
  have hr : printNat m ++ d::bs = b::(rest ++ d::bs) := by rw [hb]; rfl
  have h57 := isDigit_toNat hdig
  have hn : isspace b = false := by
    simp only [isspace, Bool.or_eq_false_iff, decide_eq_false_iff_not, Bool.and_eq_false_iff]
    refine ⟨fun h => ?_, by omega⟩
    rw [h] at h57
    exact absurd h57.1 (by decide)
  have h47 : b ≠ 47 := by
    rintro rfl
    exact absurd h57.1 (by decide)
  obtain ⟨L₁, h, hL₁⟩ := yylex_spaces hx version hsp (by omega) hn h47 (hr ▸ hL)
  obtain ⟨L', hnum, hL'⟩ := lexNumber_printNat hx hd hr hL₁ version
  exact ⟨_, h.trans ((lexFrom_digit hx version hdig L₁).trans hnum), .back hd.ascii hL'⟩

theorem lexes_int {sp : List Byte} (hsp : ∀ b ∈ sp, b = 32) {d : Byte} (hd : Ends d) (m : Num)
    {bs : List Byte} {L : Lexer} (hL : Reading L (sp ++ (print m.toInt ++ d::bs))) :
    ∃ L', Lexes x version L (literalTokens (.int m)) L' ∧ Reading L' (d::bs) := by
  rw [literalTokens]
  by_cases hneg : m.toInt < 0
  · rw [print, if_pos hneg, List.cons_append] at hL
    have hm : BitVec.ofNat 64 m.toInt.natAbs = -m := by
      rw [← BitVec.ofInt_natCast, Int.ofNat_natAbs_of_nonpos (by omega), BitVec.ofInt_neg,
        BitVec.ofInt_toInt]
    obtain ⟨L₁, h₁, hL₁⟩ := lexes_punct hx version hsp (by decide) hL
    obtain ⟨L₂, h₂, hL₂⟩ := lexes_digits hx version (List.forall_mem_nil (· = 32)) hd
      m.toInt.natAbs (.fresh hL₁)
    rw [hm] at h₂
    rw [if_pos hneg]
    exact ⟨L₂, .cons h₁ (.one h₂), hL₂⟩
  · rw [print, if_neg hneg] at hL
    have hm : BitVec.ofNat 64 m.toInt.natAbs = m := by
      rw [← BitVec.ofInt_natCast, Int.natAbs_of_nonneg (by omega), BitVec.ofInt_toInt]
    obtain ⟨L₁, h₁, hL₁⟩ := lexes_digits hx version hsp hd m.toInt.natAbs hL
    rw [hm] at h₁
    rw [if_neg hneg]
    exact ⟨L₁, .one h₁, hL₁⟩

theorem lexes_obj {sp : List Byte} (hsp : ∀ b ∈ sp, b = 32) {d : Byte} (hd : Ends d) (m : Objid)
    {bs : List Byte} {L : Lexer} (hL : Reading L (sp ++ (35::print m.toInt ++ d::bs))) :
    ∃ L', Lexes x version L (literalTokens (.obj m)) L' ∧ Reading L' (d::bs) := by
  obtain ⟨L₁, h, hL₁⟩ := yylex_spaces hx version hsp (b := 35) (by decide)
    (by decide) (by decide) hL
  obtain ⟨L', hobj, hL'⟩ := lexObject_print hx hd m hL₁
  have hf : lexFrom x version (int 35) L₁ = lexObject x L₁ := if_pos rfl
  exact ⟨_, .one (h.trans (hf.trans hobj)), .back hd.ascii hL'⟩

theorem lexes_str {sp : List Byte} (hsp : ∀ b ∈ sp, b = 32) {cs : List Char} (hn : '\n' ∉ cs)
    {bs : List Byte} {L : Lexer} (hL : Reading L (sp ++ (34::(escape (encode cs) ++ [34]) ++ bs))) :
    ∃ L', Lexes x version L (literalTokens (.str (encode cs))) L' ∧ Reading L' bs := by
  rw [List.cons_append, List.append_assoc, List.singleton_append] at hL
  obtain ⟨L₁, h, hL₁⟩ := yylex_spaces hx version hsp (by decide) (by decide) (by decide) hL
  have hf : cs.length < L₁.left := by
    have h₁ := length_le_encode cs
    have h₂ := length_escape (encode cs)
    rw [hL₁.left, List.length_append]
    omega
  obtain ⟨L', hch, hL'⟩ := lexChars_encode hn hf hL₁ []
  have hstr : lexString L₁ = (some ⟨.tString, .string (encode cs)⟩, L') := by
    rw [lexString, hch]
    rfl
  exact ⟨L', .one (h.trans ((lexFrom_quote hx version L₁).trans hstr)), .fresh hL'⟩

theorem lexes_keyword {sp : List Byte} (hsp : ∀ b ∈ sp, b = 32) {b : Byte} {w : Str}
    (hb : isAlpha b = true)
    (hw : ∀ b ∈ w, b.toNat < 128 ∧ (isAlpha b || isDigit b || b = 95) = true) {k : Keyword}
    (hk : findKeyword (b::w) = some k) (hv : DbVersion.num k.version ≤ DbVersion.num version)
    {d : Byte} (hd : Ends d) {bs : List Byte} {L : Lexer}
    (hL : Reading L (sp ++ (b::w ++ d::bs))) :
    ∃ L', yylex x version L =
      (some ⟨k.token, if k.token = .tError then .error k.error else .none⟩, L') ∧
      Reading L' (d::bs) := by
  have h122 : 65 ≤ b.toNat ∧ b.toNat ≤ 122 := by
    simp only [isAlpha, Bool.or_eq_true, Bool.and_eq_true, decide_eq_true_eq] at hb
    omega
  have hn : isspace b = false := by
    simp only [isspace, Bool.or_eq_false_iff, decide_eq_false_iff_not, Bool.and_eq_false_iff]
    refine ⟨fun h => ?_, by omega⟩
    rw [h] at h122
    exact absurd h122.1 (by decide)
  have h47 : b ≠ 47 := by
    rintro rfl
    exact absurd h122.1 (by decide)
  obtain ⟨L₁, h, hL₁⟩ := yylex_spaces hx version hsp (by omega) hn h47 hL
  obtain ⟨L', hword, hL'⟩ := lexWord_keyword hx (by omega) hw hk hv hd hL₁
  exact ⟨_, h.trans ((lexFrom_alpha hx version hb L₁).trans hword), .back hd.ascii hL'⟩

theorem lexes_err {sp : List Byte} (hsp : ∀ b ∈ sp, b = 32) {d : Byte} (hd : Ends d) (e : Err)
    {bs : List Byte} {L : Lexer} (hL : Reading L (sp ++ (ascii (errorName e) ++ d::bs))) :
    ∃ L', Lexes x currentVersion L (literalTokens (.err e)) L' ∧ Reading L' (d::bs) := by
  obtain ⟨k, hk, ht, he, hv⟩ := findKeyword_errorName e
  obtain ⟨b, w, hbw, hb, hw⟩ : ∃ b w, ascii (errorName e) = b::w ∧ isAlpha b = true ∧
      ∀ b ∈ w, b.toNat < 128 ∧ (isAlpha b || isDigit b || b = 95) = true := by
    cases e <;> exact ⟨_, _, rfl, by decide, List.all_iff_forall_prop.mp (by decide)⟩
  rw [hbw] at hk hL
  obtain ⟨L', h, hL'⟩ := lexes_keyword hx currentVersion hsp hb hw hk hv hd hL
  rw [ht, if_pos rfl, he] at h
  exact ⟨L', .one h, hL'⟩

end

theorem ends_comma : Ends 44 := ⟨by decide, by decide, by decide, by decide, by decide⟩
theorem ends_brace : Ends 125 := ⟨by decide, by decide, by decide, by decide, by decide⟩
theorem ends_semicolon : Ends 59 := ⟨by decide, by decide, by decide, by decide, by decide⟩
theorem ends_space : Ends 32 := ⟨by decide, by decide, by decide, by decide, by decide⟩

/-- After an element of a list comes a comma or the closing brace. -/
theorem elements_ends (p : Printer) (vs : List Var) (bs : List Byte) :
    ∃ d rest, printElements p (ascii ", ") vs ++ 125::bs = d::rest ∧ Ends d := by
  cases vs with
  | nil => exact ⟨125, bs, rfl, ends_brace⟩
  | cons v vs => exact ⟨44, _, rfl, ends_comma⟩

mutual
theorem lexes_literal {x : Library} (hx : x.Ascii) (p : Printer) : ∀ (v : Var), Literal v →
    ∀ {sp : List Byte}, (∀ b ∈ sp, b = 32) → ∀ {d : Byte}, Ends d → ∀ {bs : List Byte}
      {L : Lexer}, Reading L (sp ++ (printToStream p v ++ d::bs)) →
    ∃ L', Lexes x currentVersion L (literalTokens v) L' ∧ Reading L' (d::bs)
  | .int m, _, _, hsp, _, hd, _, _, hL => lexes_int hx _ hsp hd m (by simpa [printToStream] using hL)
  | .obj m, _, _, hsp, _, hd, _, _, hL => lexes_obj hx _ hsp hd m (by simpa [printToStream] using hL)
  | .err e, _, _, hsp, _, hd, _, _, hL => lexes_err hx hsp hd e (by simpa [printToStream] using hL)
  | .str s, hv, _, hsp, _, _, _, _, hL => by
    simp only [Literal] at hv
    obtain ⟨⟨cs, rfl⟩, h10, -⟩ := hv
    have hn : '\n' ∉ cs := by
      intro h
      apply h10
      exact List.mem_flatMap.mpr ⟨'\n', h, by decide⟩
    rw [printToStream] at hL
    exact lexes_str hx _ hsp hn hL
  | .list vs, hv, _, hsp, d, hd, bs, L, hL => by
    simp only [Literal] at hv
    rw [printToStream, List.cons_append, List.append_assoc, List.singleton_append] at hL
    obtain ⟨L₁, h₁, hL₁⟩ := lexes_punct hx currentVersion hsp (by decide) hL
    obtain ⟨L₂, h₂, hL₂⟩ := lexes_first hx p vs hv hL₁
    obtain ⟨L₃, h₃, hL₃⟩ := lexes_punct hx currentVersion (List.forall_mem_nil (· = 32))
      (by decide) hL₂
    rw [literalTokens]
    exact ⟨L₃, .cons h₁ (h₂.append (.one h₃)), .fresh hL₃⟩
  | .clear, hv, _, _, _, _, _, _, _ | .none, hv, _, _, _, _, _, _, _
  | .catch _, hv, _, _, _, _, _, _, _ | .finally _, hv, _, _, _, _, _, _, _
  | .float _, hv, _, _, _, _, _, _, _ | .waif _, hv, _, _, _, _, _, _, _ => by
    simp [Literal] at hv
/-- The elements of a list from the first on. -/
theorem lexes_first {x : Library} (hx : x.Ascii) (p : Printer) : ∀ (vs : List Var),
    LiteralAll vs → ∀ {bs : List Byte} {L : Lexer},
      Fresh L (printElements p [] vs ++ 125::bs) →
    ∃ L', Lexes x currentVersion L (elementTokens [] vs) L' ∧ Reading L' (125::bs)
  | [], _, _, L, hL => ⟨L, by rw [elementTokens]; exact .nil, .fresh hL⟩
  | v::vs, hv, bs, L, hL => by
    simp only [LiteralAll] at hv
    obtain ⟨d, rest, hr, hd⟩ := elements_ends p vs bs
    rw [printElements, List.nil_append, List.append_assoc, hr] at hL
    obtain ⟨L₁, h₁, hL₁⟩ := lexes_literal hx p v hv.1 (List.forall_mem_nil (· = 32)) hd (.fresh hL)
    rw [← hr] at hL₁
    obtain ⟨L₂, h₂, hL₂⟩ := lexes_rest hx p vs hv.2 hL₁
    rw [elementTokens, List.nil_append]
    exact ⟨L₂, h₁.append h₂, hL₂⟩
theorem lexes_rest {x : Library} (hx : x.Ascii) (p : Printer) : ∀ (vs : List Var),
    LiteralAll vs → ∀ {bs : List Byte} {L : Lexer},
      Reading L (printElements p (ascii ", ") vs ++ 125::bs) →
    ∃ L', Lexes x currentVersion L (elementTokens [chrToken ','] vs) L' ∧ Reading L' (125::bs)
  | [], _, _, L, hL => ⟨L, by rw [elementTokens]; exact .nil, hL⟩
  | v::vs, hv, bs, L, hL => by
    simp only [LiteralAll] at hv
    obtain ⟨d, rest, hr, hd⟩ := elements_ends p vs bs
    rw [printElements, List.append_assoc, List.append_assoc, hr] at hL
    obtain ⟨L₁, h₁, hL₁⟩ := lexes_punct hx currentVersion (List.forall_mem_nil (· = 32))
      (b := 44) (by decide) hL
    obtain ⟨L₂, h₂, hL₂⟩ := lexes_literal hx p v hv.1
      (show ∀ b ∈ [(32 : Byte)], b = 32 by simp) hd (.fresh hL₁)
    rw [← hr] at hL₂
    obtain ⟨L₃, h₃, hL₃⟩ := lexes_rest hx p vs hv.2 hL₂
    rw [elementTokens]
    exact ⟨L₃, (Lexes.cons h₁ h₂).append h₃, hL₃⟩
end

theorem printNat_pos (m : ℕ) : 0 < (printNat m).length :=
  List.length_pos_of_ne_nil (printNat_ne_nil m)

mutual
theorem length_literalTokens (p : Printer) : ∀ (v : Var), Literal v →
    (literalTokens v).length ≤ (printToStream p v).length
  | .int m, _ => by
    have h := printNat_pos m.toInt.natAbs
    rw [literalTokens, printToStream, print]
    split
    · simp only [List.length_cons, List.length_nil]
      omega
    · simp only [List.length_cons, List.length_nil]
      omega
  | .obj m, _ => by
    rw [literalTokens, printToStream]
    simp
  | .err e, _ => by
    rw [literalTokens, printToStream]
    cases e <;> decide
  | .str s, _ => by
    rw [literalTokens, printToStream]
    simp
  | .list vs, hv => by
    simp only [Literal] at hv
    have h := length_elementTokens p vs hv [] [] (Nat.le_refl 0)
    rw [literalTokens, printToStream]
    simp only [List.length_cons, List.length_append, List.length_nil]
    omega
  | .clear, hv | .none, hv | .catch _, hv | .finally _, hv | .float _, hv | .waif _, hv => by
    simp [Literal] at hv
theorem length_elementTokens (p : Printer) : ∀ (vs : List Var), LiteralAll vs →
    ∀ (sep : List Token) (sep' : Str), sep.length ≤ sep'.length →
    (elementTokens sep vs).length ≤ (printElements p sep' vs).length
  | [], _, _, _, _ => by simp [elementTokens, printElements]
  | v::vs, hv, sep, sep', hs => by
    simp only [LiteralAll] at hv
    have h₁ := length_literalTokens p v hv.1
    have h₂ := length_elementTokens p vs hv.2 [chrToken ','] (ascii ", ") (by decide)
    rw [elementTokens, printElements]
    simp only [List.length_append]
    omega
end

/-- The program that returns the value of a text. -/
def returning (text : Str) : List Str := [ascii "return " ++ text ++ ascii ";"]

theorem tokens_returning {x : Library} (hx : x.Ascii) (p : Printer) {v : Var} (hv : Literal v) :
    ∃ L', tokens x currentVersion (startLexer (returning (valueToLiteral p v))) =
      (⟨.tReturn, .none⟩::(literalTokens v ++ [chrToken ';']), L') ∧ L'.errors = [] := by
  have hb : (listSource (returning (valueToLiteral p v))).bytes =
      ascii "return" ++ 32::(printToStream p v ++ 59::[10]) := by
    simp [listSource, returning, valueToLiteral, ascii]
  have hL : Fresh (startLexer (returning (valueToLiteral p v)))
      (ascii "return" ++ 32::(printToStream p v ++ 59::[10])) := ⟨rfl, rfl, hb, rfl⟩
  obtain ⟨L₁, h₁, hL₁⟩ := lexes_keyword hx currentVersion (List.forall_mem_nil (· = 32))
    (b := 114) (w := ascii "eturn") (by decide) (List.all_iff_forall_prop.mp (by decide)) rfl (by decide)
    ends_space (.fresh hL)
  obtain ⟨L₂, h₂, hL₂⟩ := lexes_literal hx p v hv (show ∀ b ∈ [(32 : Byte)], b = 32 by simp)
    ends_semicolon hL₁
  obtain ⟨L₃, h₃, hL₃⟩ := lexes_punct hx currentVersion (List.forall_mem_nil (· = 32)) (b := 59)
    (by decide) hL₂
  obtain ⟨L₄, h₄, hq⟩ := yylex_end hx currentVersion (.fresh hL₃)
  have hlen := length_literalTokens p v hv
  refine ⟨L₄, ?_, hq⟩
  apply Lexes.tokensFuel (.cons h₁ (h₂.append (.one h₃))) h₄
  rw [hL.left]
  simp only [List.length_cons, List.length_append, List.length_nil]
  omega

end LambdaMoo.Parse
