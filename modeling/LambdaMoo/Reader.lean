import LambdaMoo.Lexemes

/-!
# The runes behind the lexer

A lexer whose client holds well-formed UTF-8 has a list of runes ahead of it,
those pushed back first. Each function of the lexer computes the function of
the same meaning on that list and leaves the lexer before what is left of it.
Only white space moves the line number.
-/

set_option autoImplicit false

namespace LambdaMoo.Lexemes
open LambdaMoo.Utf LambdaMoo.DbIo LambdaMoo.Parse

/-- No character is there beyond the end of the input. -/
structure NoneBeyond (x : Library) : Prop where
  digit : x.isdigit EOF = false
  cont : x.isXidCont EOF = false

/-- The lexer is on line `n` with the runes `us` ahead of it. -/
structure Reads (n : ℕ) (L : Lexer) (us : Runes) : Prop where
  state : L.getcState = -1
  line : L.lineno = n
  text : ∃ cs k, L.client.bytes = encode cs ∧
    L.unget ++ cs.map rune = us ++ List.replicate k EOF
  real : EOF ∉ us

/-- The lexer has read the first of the runes `us`. -/
structure Held (n : ℕ) (c : ℤ) (L : Lexer) (us : Runes) : Prop where
  char : c = ahead us
  rest : Reads n L us.tail
  real : EOF ∉ us

def Gives {α : Type} (n : ℕ) (r : α × Lexer) (s : α × Runes) : Prop :=
  r.1 = s.1 ∧ Reads n r.2 s.2

theorem not_mem_suffix {us vs : Runes} (h : EOF ∉ us) (hs : vs <:+ us) : EOF ∉ vs :=
  fun he => h (hs.subset he)

theorem Reads.held {n : ℕ} {L : Lexer} {us : Runes} (h : Reads n L us) :
    Held n (lexGetc L).1 (lexGetc L).2 us := by
  obtain ⟨hs, hl, ⟨cs, k, hb, ht⟩, hr⟩ := h
  have hr' := not_mem_suffix hr (List.tail_suffix us)
  cases hu : L.unget with
  | cons c u =>
    have hg : lexGetc L = (c, {L with unget := u}) := by rw [lexGetc, hu]
    rw [hu] at ht
    cases us with
    | nil =>
      cases k with
      | zero => simp at ht
      | succ k =>
        obtain ⟨hc, ht⟩ := List.cons.inj ht
        rw [hg]
        exact ⟨hc, ⟨hs, hl, ⟨cs, k, hb, ht⟩, hr'⟩, hr⟩
    | cons d us =>
      obtain ⟨hc, ht⟩ := List.cons.inj ht
      rw [hg]
      exact ⟨hc, ⟨hs, hl, ⟨cs, k, hb, ht⟩, hr'⟩, hr⟩
  | nil =>
    rw [hu, List.nil_append] at ht
    have hsrc : L.client = ⟨encode cs,L.client.eofs⟩ := by rw [← hb]
    cases cs with
    | nil =>
      have hus : us = [] := by
        cases us with
        | nil => rfl
        | cons d us => simp at ht
      have hk : k = 0 := by
        rw [hus] at ht
        simpa using ht.symm
      have he : getUtfCall (-1) L.client = (EOF, -1, ⟨[],L.client.eofs+1⟩) := by
        rw [hsrc]
        rfl
      have hg : lexGetc L = (EOF, {L with getcState := -1, client := ⟨[],L.client.eofs+1⟩}) := by
        simp only [lexGetc, hu, hs, he]
      rw [hg, hus]
      exact ⟨rfl, ⟨rfl, hl, ⟨[], 0, rfl, by simp [hu]⟩, by simp⟩, by simp⟩
    | cons c cs =>
      have he := getUtfCall_char c (encode cs) L.client.eofs
      rw [show String.utf8EncodeChar c ++ encode cs = encode (c::cs) from rfl, ← hsrc] at he
      have hg : lexGetc L =
          (rune c, {L with getcState := -1, client := ⟨encode cs,L.client.eofs⟩}) := by
        simp only [lexGetc, hu, hs, he]
      rw [List.map_cons] at ht
      rw [hg]
      cases us with
      | nil =>
        cases k with
        | zero => simp at ht
        | succ k => exact absurd (List.cons.inj ht).1 (rune_ne_eof c)
      | cons d us =>
        obtain ⟨hc, ht⟩ := List.cons.inj ht
        exact ⟨hc, ⟨rfl, hl, ⟨cs, k, rfl, by simpa [hu] using ht⟩, hr'⟩, hr⟩

theorem Held.back {n : ℕ} {c : ℤ} {L : Lexer} {us : Runes} (h : Held n c L us) :
    Reads n (lexUngetc c L) us := by
  obtain ⟨rfl, ⟨hs, hl, ⟨cs, k, hb, ht⟩, -⟩, hr⟩ := h
  refine ⟨hs, hl, ?_, hr⟩
  cases us with
  | nil => exact ⟨cs, k+1, hb, congrArg (EOF :: ·) ht⟩
  | cons d us => exact ⟨cs, k, hb, congrArg (d :: ·) ht⟩

theorem Held.next {n : ℕ} {c : ℤ} {L : Lexer} {us : Runes} (h : Held n c L us) :
    Held n (lexGetc L).1 (lexGetc L).2 us.tail := h.rest.held

theorem Reads.error {n : ℕ} {L : Lexer} {us : Runes} (h : Reads n L us) (text : String)
    (name : Option Str) : Reads n (L.error text name) us := ⟨h.state, h.line, h.text, h.real⟩

theorem Reads.warning {n : ℕ} {L : Lexer} {us : Runes} (h : Reads n L us) (text : String)
    (name : Option Str) : Reads n (L.warning text name) us := by
  rw [Lexer.warning]
  split
  · exact ⟨h.state, h.line, h.text, h.real⟩
  · exact h.error text name

theorem Reads.renamed {n : ℕ} {L : Lexer} {us : Runes} (h : Reads n L us) (w : Str) :
    Reads n {(if L.mustRename then L
      else L.warning "Renaming old use of new keyword: " (some w)) with mustRename := true} us := by
  split
  · exact ⟨h.state, h.line, h.text, h.real⟩
  · have hw := h.warning "Renaming old use of new keyword: " (some w)
    exact ⟨hw.state, hw.line, hw.text, hw.real⟩

theorem Reads.lines {n : ℕ} {L : Lexer} {us : Runes} (h : Reads n L us) (k : ℕ) :
    Reads (n+k) {L with lineno := L.lineno+k} us :=
  ⟨h.state, congrArg (·+k) h.line, h.text, h.real⟩

theorem Reads.left {n : ℕ} {L : Lexer} {us : Runes} (h : Reads n L us) :
    us.length+2 ≤ L.left := by
  obtain ⟨-, -, ⟨cs, k, hb, ht⟩, -⟩ := h
  have hl := congrArg List.length ht
  have hc := length_le_encode cs
  simp only [List.length_append, List.length_map, List.length_replicate] at hl
  rw [Lexer.left, hb]
  omega

theorem Held.length_lt {n : ℕ} {c : ℤ} {L : Lexer} {us : Runes} (h : Held n c L us) :
    us.length < L.left := by
  have hl := h.rest.left
  rw [List.length_tail] at hl
  omega

theorem follow_gives {α : Type} {n : ℕ} {L : Lexer} {us : Runes} (h : Reads n L us)
    (expect : ℤ) (ifyes ifno : α) :
    Gives n (follow expect ifyes ifno L) (ifNext expect ifyes ifno us) := by
  have hc := h.held
  rw [follow, ifNext, ← hc.char]
  split
  · exact ⟨rfl, hc.rest⟩
  · exact ⟨rfl, hc.back⟩

theorem checkbitwise_gives {n : ℕ} {L : Lexer} {us : Runes} (h : Reads n L us) :
    Gives n (checkbitwise L) (bitwise us) := by
  have h₁ := h.held
  have h₂ := h₁.next
  have hb : Reads n (lexUngetc (lexGetc L).1
      (lexUngetc (lexGetc (lexGetc L).2).1 (lexGetc (lexGetc L).2).2)) us :=
    Held.back ⟨h₁.char, h₂.back, h₁.real⟩
  unfold checkbitwise bitwise
  rw [← h₁.char, ← h₂.char]
  dsimp only
  split_ifs
  · exact ⟨rfl, hb⟩
  · exact ⟨rfl, h₂.rest⟩
  · exact ⟨rfl, h₂.rest⟩
  · exact ⟨rfl, h₂.rest⟩
  · exact ⟨rfl, hb⟩

theorem checkrightshift_gives {α : Type} {n : ℕ} {L : Lexer} {us : Runes} (h : Reads n L us)
    (iftwo ifone ifnone : α) :
    Gives n (checkrightshift iftwo ifone ifnone L) (rightshift iftwo ifone ifnone us) := by
  have hc := h.held
  rw [checkrightshift, rightshift, ← hc.char]
  dsimp only
  split
  · exact follow_gives hc.rest _ _ _
  · exact ⟨rfl, hc.back⟩

theorem plain_gives {n : ℕ} {r : Kind × Lexer} {s : Kind × Runes} (h : Gives n r s) :
    Gives n (plain r) (single s) := 
  ⟨congrArg (fun k => (some ⟨k, .none⟩ : Option Token)) h.1, h.2⟩

theorem orElse_gives {n : ℕ} {r : Option Kind × Lexer} {s : Option Kind × Runes}
    {next : Lexer → Kind × Lexer} {next' : Runes → Kind × Runes} (h : Gives n r s)
    (hn : ∀ {L : Lexer} {us : Runes}, Reads n L us → Gives n (next L) (next' us)) :
    Gives n (orElse r next) (orNext s next') := by
  rcases r with ⟨k, L⟩
  rcases s with ⟨k', us⟩
  obtain ⟨rfl, hL⟩ : k = k' ∧ Reads n L us := h
  cases k with
  | none => exact plain_gives (hn hL)
  | some k => exact ⟨rfl, hL⟩

theorem lexDot_gives {n : ℕ} {L : Lexer} {us : Runes} (h : Reads n L us) :
    Gives n (lexDot L) (dot us) :=
  orElse_gives (checkbitwise_gives h) fun h => follow_gives h _ _ _

theorem lexOther_gives {n : ℕ} {L : Lexer} {us : Runes} (h : Reads n L us) (c : ℤ) :
    Gives n (lexOther c L) (other c us) := by
  unfold lexOther other
  split_ifs
  · exact orElse_gives (follow_gives h _ _ _) fun h => checkrightshift_gives h _ _ _
  · exact orElse_gives (follow_gives h _ _ _) fun h => follow_gives h _ _ _
  · exact orElse_gives (follow_gives h _ _ _) fun h => follow_gives h _ _ _
  · exact plain_gives (follow_gives h _ _ _)
  · exact plain_gives (follow_gives h _ _ _)
  · exact plain_gives (follow_gives h _ _ _)
  · exact lexDot_gives h
  · exact ⟨rfl, h⟩
  · exact ⟨rfl, h⟩

theorem lexChars_gives {n : ℕ} {L : Lexer} {us : Runes} (h : Reads n L us) {fuel : ℕ}
    (hf : us.length < fuel) (tok : Str) : Gives n (lexChars fuel tok L) (chars tok us) := by
  induction fuel generalizing L us tok with
  | zero => exact absurd hf (Nat.not_lt_zero _)
  | succ fuel ih =>
    have hc := h.held
    cases us with
    | nil =>
      have he : (lexGetc L).1 = EOF := hc.char
      have hs : lexChars (fuel+1) tok L = (tok, (lexGetc L).2.error "Missing quote" none) := by
        rw [lexChars]
        simp only [he, show ¬ EOF = rune '"' by decide, show ¬ EOF = rune '\\' by decide, if_false,
          or_true, if_true]
      rw [hs]
      exact ⟨rfl, hc.rest.error _ _⟩
    | cons c us =>
      have he : (lexGetc L).1 = c := hc.char
      have hlen : us.length < fuel := Nat.lt_of_succ_lt_succ hf
      have hne : c ≠ EOF := fun hx => hc.real (hx ▸ List.mem_cons_self)
      rw [lexChars, chars.eq_def]
      simp only [he]
      by_cases hq : c = rune '"'
      · simp only [if_pos hq]
        exact ⟨rfl, hc.rest⟩
      · simp only [if_neg hq]
        by_cases hb : c = rune '\\'
        · simp only [if_pos hb]
          have hd := hc.next
          cases us with
          | nil =>
            have hd' : (lexGetc (lexGetc L).2).1 = EOF := hd.char
            simp only [hd', or_true, if_true]
            exact ⟨rfl, hd.rest.error _ _⟩
          | cons d us =>
            have hd' : (lexGetc (lexGetc L).2).1 = d := hd.char
            have hde : d ≠ EOF := fun hx => hd.real (hx ▸ List.mem_cons_self)
            simp only [hd', hde, or_false]
            split
            · exact ⟨rfl, hd.rest.error _ _⟩
            · exact ih hd.rest (Nat.lt_of_succ_lt hlen) _
        · simp only [if_neg hb, he, hne, or_false]
          split
          · exact ⟨rfl, hc.rest.error _ _⟩
          · exact ih hc.rest hlen _

theorem skipComment_reads {n : ℕ} {L : Lexer} {us : Runes} (h : Reads n L us) {fuel : ℕ}
    (hf : us.length < fuel) :
    (skipComment fuel L).1 = (comment us).isSome ∧
      ∀ vs, comment us = some vs → Reads n (skipComment fuel L).2 vs := by
  induction fuel generalizing L us with
  | zero => exact absurd hf (Nat.not_lt_zero _)
  | succ fuel ih =>
    have hc := h.held
    cases us with
    | nil =>
      have he : (lexGetc L).1 = EOF := hc.char
      have hs : skipComment (fuel+1) L = (false, (lexGetc L).2) := by
        rw [skipComment]
        simp only [he]
        rfl
      rw [hs]
      exact ⟨rfl, fun vs hv => by simp [comment] at hv⟩
    | cons c us =>
      have he : (lexGetc L).1 = c := hc.char
      have hlen : us.length < fuel := Nat.lt_of_succ_lt_succ hf
      have hne : c ≠ EOF := fun hx => hc.real (hx ▸ List.mem_cons_self)
      rw [skipComment, comment.eq_def]
      simp only [he]
      by_cases hb : c = rune '*'
      · simp only [if_pos hb]
        have hd := hc.next
        cases us with
        | nil =>
          have hd' : (lexGetc (lexGetc L).2).1 = EOF := hd.char
          simp only [hd', if_true, show ¬ EOF = rune '/' by decide, if_false]
          exact ⟨rfl, fun vs hv => by simp at hv⟩
        | cons d us =>
          have hd' : (lexGetc (lexGetc L).2).1 = d := hd.char
          have hde : d ≠ EOF := fun hx => hd.real (hx ▸ List.mem_cons_self)
          simp only [hd', hde, if_false]
          by_cases hs : d = rune '/'
          · simp only [if_pos hs]
            exact ⟨rfl, fun vs hv => Option.some.inj hv ▸ hd.rest⟩
          · simp only [if_neg hs]
            exact ih hd.rest (Nat.lt_of_succ_lt hlen)
      · simp only [if_neg hb, hne, if_false]
        exact ih hc.rest hlen

theorem ahead_cons (c : ℤ) (us : Runes) : ahead (c::us) = c := rfl

end LambdaMoo.Lexemes
