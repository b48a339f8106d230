import LambdaMoo.Reader

/-!
# Reading numbers

A numeral is a run of digits, perhaps a dot and more digits, perhaps an
exponent. The character that ends one part is held while the lexer decides
what the next part is.
-/

set_option autoImplicit false

namespace LambdaMoo.Lexemes
open LambdaMoo.Utf LambdaMoo.DbIo LambdaMoo.Parse

theorem dropWhile_digits {x : Library} {us : Runes} (h : us.takeWhile x.isdigit = []) :
    us.dropWhile x.isdigit = us := by
  have ha := List.takeWhile_append_dropWhile (p := x.isdigit) (l := us)
  rwa [h, List.nil_append] at ha

theorem peekXor_reads (x : Library) {n : ℕ} {L : Lexer} {us : Runes} (h : Reads n L us) :
    (peekXor x L).1 =
        decide (ahead us.tail = rune '.' ∧ x.isdigit (ahead us.tail.tail) = false) ∧
      Reads n (peekXor x L).2 us := by
  have h₁ := h.held
  have h₂ := h₁.next
  have h₃ := h₂.next
  refine ⟨?_, Held.back ⟨h₁.char, Held.back ⟨h₂.char, h₃.back, h₂.real⟩, h₁.real⟩⟩
  rw [← h₂.char, ← h₃.char]
  rfl

theorem finishNumber_gives (x : Library) {n : ℕ} (v : Num) {s : Scan} {us : Runes}
    (h : Held n s.c s.lexer us) :
    Gives n (finishNumber x v s) (numeral x s.isFloat v s.tok, us) := by
  unfold finishNumber numeral
  dsimp only
  split_ifs
  · exact ⟨rfl, h.back⟩
  · exact ⟨rfl, h.back.error _ _⟩
  · exact ⟨rfl, h.back⟩

/-- A dot that is left alone ends an integer. -/
theorem integer_gives (x : Library) {n : ℕ} (version : DbVersion) (v : Num) {tok : Str} {L : Lexer} {us : Runes}
    (h : Held n (rune '.') L us) :
    Gives n (match (if floats version ∧ (rune '.' = rune 'e' ∨ rune '.' = rune 'E') then
          lexExponent x ⟨false, tok, rune '.', L⟩
        else .ok ⟨false, tok, rune '.', L⟩) with
      | .error L => (none, L)
      | .ok s => finishNumber x v s) (numeral x false v tok, us) := by
  rw [if_neg (fun hc => absurd hc.2 (by decide))]
  exact finishNumber_gives x v (s := ⟨false, tok, rune '.', L⟩) h

section
variable {x : Library} (hx : NoneBeyond x)
include hx

theorem lexDigits_held {n : ℕ} {c : ℤ} {L : Lexer} {us : Runes} (h : Held n c L us) {fuel : ℕ}
    (hf : us.length < fuel) (v : Num) (tok : Str) :
    ∃ c' L', lexDigits x fuel v tok c L =
        (valueOf x v (us.takeWhile x.isdigit), textOf tok (us.takeWhile x.isdigit), c', L') ∧
      Held n c' L' (us.dropWhile x.isdigit) := by
  induction us generalizing c L fuel v tok with
  | nil =>
    obtain ⟨fuel, rfl⟩ : ∃ m, fuel = m+1 := ⟨fuel-1, by simp at hf; omega⟩
    refine ⟨c, L, ?_, h⟩
    rw [lexDigits, h.char, if_neg (by rw [ahead, List.headD_nil, hx.digit]; simp)]
    rfl
  | cons d us ih =>
    obtain ⟨fuel, rfl⟩ : ∃ m, fuel = m+1 := ⟨fuel-1, by simp at hf; omega⟩
    obtain rfl : c = d := h.char
    by_cases hd : x.isdigit c = true
    · obtain ⟨c', L', he, hL'⟩ := ih h.next (Nat.lt_of_succ_lt_succ hf)
        (v*10+BitVec.ofInt 64 (x.digitval c)) (streamAddUtf tok c)
      rw [lexDigits, if_pos hd, List.takeWhile_cons_of_pos hd, List.dropWhile_cons_of_pos hd]
      exact ⟨c', L', he, hL'⟩
    · rw [lexDigits, if_neg hd, List.takeWhile_cons_of_neg hd, List.dropWhile_cons_of_neg hd]
      exact ⟨c, L, rfl, h⟩

theorem lexMoreDigits_held {n : ℕ} {c : ℤ} {L : Lexer} {us : Runes} (h : Held n c L (c::us))
    {fuel : ℕ} (hf : us.length < fuel) (tok : Str) :
    ∃ c' L', lexMoreDigits x fuel tok c L =
        ⟨true, textOf (streamAddUtf tok c) (us.takeWhile x.isdigit), c', L'⟩ ∧
      Held n c' L' (us.dropWhile x.isdigit) := by
  induction us generalizing c L fuel tok with
  | nil =>
    obtain ⟨fuel, rfl⟩ : ∃ m, fuel = m+1 := ⟨fuel-1, by simp at hf; omega⟩
    have he : (lexGetc L).1 = EOF := h.next.char
    refine ⟨_, _, ?_, h.next⟩
    rw [lexMoreDigits]
    rw [if_neg (by rw [he, hx.digit]; simp)]
    rfl
  | cons d us ih =>
    obtain ⟨fuel, rfl⟩ : ∃ m, fuel = m+1 := ⟨fuel-1, by simp at hf; omega⟩
    have hn := h.next
    have he : (lexGetc L).1 = d := hn.char
    rw [lexMoreDigits]
    rw [he]
    by_cases hd : x.isdigit d = true
    · rw [List.tail_cons, he] at hn
      obtain ⟨c', L', hm, hL'⟩ := ih hn (Nat.lt_of_succ_lt_succ hf) (streamAddUtf tok c)
      rw [if_pos hd, List.takeWhile_cons_of_pos hd, List.dropWhile_cons_of_pos hd]
      exact ⟨c', L', hm, hL'⟩
    · rw [if_neg hd, List.takeWhile_cons_of_neg hd, List.dropWhile_cons_of_neg hd]
      exact ⟨_, _, rfl, he ▸ hn⟩

theorem ahead_digit {us : Runes} (h : x.isdigit (ahead us) = true) :
    ∃ c r, us = c::r ∧ x.isdigit c = true := by
  cases us with
  | nil =>
    rw [ahead, List.headD_nil, hx.digit] at h
    exact absurd h Bool.false_ne_true
  | cons c r => exact ⟨c, r, rfl, h⟩

/-- There are digits ahead exactly where the run of them is not empty. -/
theorem digits_nil (us : Runes) : us.takeWhile x.isdigit = [] ↔ ¬ x.isdigit (ahead us) = true := by
  cases us with
  | nil => simp [ahead, hx.digit]
  | cons c r =>
    by_cases hc : x.isdigit c = true
    · simp [List.takeWhile_cons_of_pos hc, ahead_cons, hc]
    · simp [List.takeWhile_cons_of_neg hc, ahead_cons, hc]

theorem objectDigits_gives {n : ℕ} {c : ℤ} {L : Lexer} {us : Runes} (negative : Bool)
    (h : Held n c L us) :
    Gives n (if x.isdigit c then
        let d := lexDigits x L.left 0 [] c L
        (some (⟨.tObject, .object (if negative then -d.1 else d.1)⟩ : Token),
          lexUngetc d.2.2.1 d.2.2.2)
      else (none, lexUngetc c (L.error "Malformed object number" none)))
      (objectDigits x negative us) := by
  obtain ⟨c', L', he, hL'⟩ := lexDigits_held hx h h.length_lt 0 []
  rw [objectDigits]
  by_cases hc : x.isdigit c = true
  · have hn : us.takeWhile x.isdigit ≠ [] := by
      rw [ne_eq, digits_nil hx, ← h.char]
      exact not_not.mpr hc
    simp only [if_pos hc, he, if_neg hn]
    exact ⟨rfl, hL'.back⟩
  · have hn : us.takeWhile x.isdigit = [] := by
      rw [digits_nil hx, ← h.char]
      exact hc
    rw [if_neg hc, if_pos hn, dropWhile_digits hn]
    exact ⟨rfl, Held.back ⟨h.char, h.rest.error _ _, h.real⟩⟩

theorem lexObject_gives {n : ℕ} {L : Lexer} {us : Runes} (h : Reads n L us) :
    Gives n (lexObject x L) (object x us) := by
  have hc := h.held
  unfold lexObject object
  rw [← hc.char]
  by_cases hm : (lexGetc L).1 = rune '-'
  · simp only [hm, decide_true, if_true]
    exact objectDigits_gives hx true hc.next
  · simp only [hm, decide_false, if_false, Bool.false_eq_true]
    exact objectDigits_gives hx false hc

theorem exponentDigits_gives {n : ℕ} (v : Num) {c : ℤ} {L : Lexer} {us : Runes}
    (h : Held n c L us) (tok : Str) :
    Gives n (match (if x.isdigit c then Except.ok (lexMoreDigits x L.left tok c L)
        else .error (lexUngetc c (L.error "Malformed floating-point literal" none))) with
      | .error L => (none, L)
      | .ok s => finishNumber x v s) (exponentDigits x tok us) := by
  rw [exponentDigits]
  by_cases hc : x.isdigit c = true
  · obtain ⟨d, r, rfl, hd⟩ := ahead_digit hx (h.char ▸ hc)
    obtain rfl : c = d := h.char
    have hl : r.length < L.left := by
      have := h.length_lt
      rw [List.length_cons] at this
      omega
    obtain ⟨c', L', he, hL'⟩ := lexMoreDigits_held hx h hl tok
    rw [if_pos hc, he, if_neg (by rw [List.takeWhile_cons_of_pos hc]; simp),
      List.takeWhile_cons_of_pos hc, List.dropWhile_cons_of_pos hc]
    exact finishNumber_gives x v (s := ⟨true, _, c', L'⟩) hL'
  · have hn : us.takeWhile x.isdigit = [] := by
      rw [digits_nil hx, ← h.char]
      exact hc
    rw [if_neg hc, if_pos hn, dropWhile_digits hn]
    exact ⟨rfl, Held.back ⟨h.char, h.rest.error _ _, h.real⟩⟩

theorem lexExponent_gives {n : ℕ} (v : Num) {s : Scan} {us : Runes}
    (h : Held n s.c s.lexer us) :
    Gives n (match lexExponent x s with
      | .error L => (none, L)
      | .ok s => finishNumber x v s) (exponentSign x (streamAddUtf s.tok s.c) us.tail) := by
  have hc := h.next
  unfold lexExponent exponentSign
  rw [← hc.char]
  by_cases hs : (lexGetc s.lexer).1 = rune '+' ∨ (lexGetc s.lexer).1 = rune '-'
  · simp only [hs, decide_true, if_true]
    exact exponentDigits_gives hx v hc.next _
  · simp only [hs, decide_false, if_false, Bool.false_eq_true]
    exact exponentDigits_gives hx v hc _

/-- From the exponent on. -/
theorem exponent_gives {n : ℕ} (version : DbVersion) (v : Num) {s : Scan} {us : Runes}
    (h : Held n s.c s.lexer us) :
    Gives n (match (if floats version ∧ (s.c = rune 'e' ∨ s.c = rune 'E') then lexExponent x s
        else .ok s) with
      | .error L => (none, L)
      | .ok s => finishNumber x v s) (exponent x version s.isFloat v s.tok us) := by
  rw [exponent, ← h.char]
  split_ifs
  · exact lexExponent_gives hx v h
  · exact finishNumber_gives x v h

/-- After the digits before a dot. -/
theorem lexFraction_gives {n : ℕ} (version : DbVersion) (v : Num) {tok : Str} {L : Lexer}
    {r : Runes} (h : Held n (rune '.') L (rune '.'::r)) (hv : floats version) :
    Gives n (match lexFraction x ⟨false, tok, rune '.', L⟩ with
      | .error L => lexDot L
      | .ok s =>
        match (if floats version ∧ (s.c = rune 'e' ∨ s.c = rune 'E') then lexExponent x s
          else .ok s) with
        | .error L => (none, L)
        | .ok s => finishNumber x v s) (fraction x version v tok (rune '.'::r)) := by
  have hn := h.next
  have hc : (lexGetc L).1 = ahead r := hn.char
  have hb : Reads n (lexUngetc (lexGetc L).1 (lexGetc L).2) r := hn.back
  have held : ∀ {L : Lexer}, Reads n L r → Held n (rune '.') L (rune '.'::r) :=
    fun hr => ⟨rfl, hr, h.real⟩
  unfold lexFraction fraction
  dsimp only
  generalize lexUngetc (lexGetc L).1 (lexGetc L).2 = L₁ at hb
  have hdot : floats version ∧ ahead (rune '.'::r) = rune '.' := ⟨hv, rfl⟩
  rw [hc, if_pos hdot, List.tail_cons]
  by_cases hd : x.isdigit (ahead r) = true
  · have hl : r.length < L₁.left := by
      have := hb.left
      omega
    obtain ⟨c', L₂, hm, hL₂⟩ := lexMoreDigits_held hx (held hb) hl tok
    rw [if_pos hd, if_pos hd, hm]
    exact exponent_gives hx version v (s := ⟨true, _, c', L₂⟩) hL₂
  · rw [if_neg hd, if_neg hd]
    by_cases ht : tok = []
    · rw [if_pos ht, if_pos ht]
      exact lexDot_gives hb
    · rw [if_neg ht, if_neg ht]
      by_cases hdir : ahead r ≠ rune '.' ∧ ahead r ≠ rune '|' ∧ ahead r ≠ rune '&'
      · rw [if_pos hdir]
        by_cases hxor : ahead r = rune '^'
        · obtain ⟨hp, hpr⟩ := peekXor_reads x hb
          rw [if_pos hxor, hp]
          simp only [decide_eq_true_eq]
          by_cases hop : ahead r.tail = rune '.' ∧ x.isdigit (ahead r.tail.tail) = false
          · have ho : Operator x r := Or.inr (Or.inr (Or.inr ⟨hxor, hop⟩))
            rw [if_pos hop, if_pos ho]
            exact integer_gives x version v (held hpr)
          · have ho : ¬ Operator x r := by
              rintro (h | h | h | h)
              · exact hdir.1 h
              · exact hdir.2.1 h
              · exact hdir.2.2 h
              · exact hop h.2
            rw [if_neg hop, if_neg ho]
            exact exponent_gives hx version v (s := ⟨true, _, _, _⟩) hpr.held
        · have ho : ¬ Operator x r := by
            rintro (h | h | h | h)
            · exact hdir.1 h
            · exact hdir.2.1 h
            · exact hdir.2.2 h
            · exact hxor h.1
          rw [if_neg hxor, if_neg ho]
          exact exponent_gives hx version v (s := ⟨true, _, _, _⟩) hb.held
      · have ho : Operator x r := by
          by_contra ho
          exact hdir ⟨fun h => ho (.inl h), fun h => ho (.inr (.inl h)),
            fun h => ho (.inr (.inr (.inl h)))⟩
        rw [if_neg hdir, if_pos ho]
        exact integer_gives x version v (held hb)

theorem lexNumber_gives {n : ℕ} (version : DbVersion) {c : ℤ} {L : Lexer} {us : Runes}
    (h : Held n c L us) : Gives n (lexNumber x version c L) (number x version us) := by
  obtain ⟨c', L', he, hL'⟩ := lexDigits_held hx h h.length_lt 0 []
  unfold lexNumber number
  simp only [he]
  generalize us.dropWhile x.isdigit = r at hL'
  by_cases hdot : floats version ∧ c' = rune '.'
  · rw [if_pos hdot]
    obtain ⟨hv, rfl⟩ := hdot
    obtain ⟨r, rfl⟩ : ∃ r', r = rune '.'::r' := by
      cases r with
      | nil => exact absurd hL'.char (by decide)
      | cons d r => exact ⟨r, congrArg (· :: r) hL'.char.symm⟩
    exact lexFraction_gives hx version _ hL' hv
  · rw [if_neg hdot, fraction, ← hL'.char, if_neg hdot]
    exact exponent_gives hx version _ (s := ⟨false, _, c', L'⟩) hL'

end

end LambdaMoo.Lexemes
