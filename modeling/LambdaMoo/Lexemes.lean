import LambdaMoo.Literal

/-!
# Lexemes

What the lexer reads, as functions on the list of runes that are left: runs of
digits and of word characters, a string up to its quote, a comment up to its
end. One step reads a space, a comment or a token. A lexeme is a token with the
text from its first character on and the newlines hidden in the comments and
tokens before it.
-/

set_option autoImplicit false

namespace LambdaMoo.Lexemes
open LambdaMoo.Utf LambdaMoo.DbIo LambdaMoo.Parse

abbrev Runes := List ℤ

def ahead (us : Runes) : ℤ := us.headD EOF

def ifNext {α : Type} (expect : ℤ) (ifyes ifno : α) (us : Runes) : α × Runes :=
  if ahead us = expect then (ifyes, us.tail) else (ifno, us)

def bitwise (us : Runes) : Option Kind × Runes :=
  if ahead us.tail ≠ rune '.' then (none, us)
  else if ahead us = rune '&' then (some .tBitand, us.tail.tail)
  else if ahead us = rune '|' then (some .tBitor, us.tail.tail)
  else if ahead us = rune '^' then (some .tBitxor, us.tail.tail)
  else (none, us)

def rightshift {α : Type} (iftwo ifone ifnone : α) (us : Runes) : α × Runes :=
  if ahead us = rune '>' then ifNext (rune '>') iftwo ifone us.tail else (ifnone, us)

def single (r : Kind × Runes) : Option Token × Runes := (some ⟨r.1, .none⟩, r.2)

def orNext (r : Option Kind × Runes) (next : Runes → Kind × Runes) : Option Token × Runes :=
  match r with
  | (some k, us) => single (k, us)
  | (none, us) => single (next us)

def dot (us : Runes) : Option Token × Runes :=
  orNext (bitwise us) (ifNext (rune '.') .tTo (.chr '.'))

def other (c : ℤ) (us : Runes) : Option Token × Runes :=
  if c = rune '>' then
    orNext (ifNext (rune '=') (some .tGe) none us) (rightshift .tLshr .tShr (.chr '>'))
  else if c = rune '<' then
    orNext (ifNext (rune '=') (some .tLe) none us) (ifNext (rune '<') .tShl (.chr '<'))
  else if c = rune '=' then
    orNext (ifNext (rune '=') (some .tEq) none us) (ifNext (rune '>') .tArrow (.chr '='))
  else if c = rune '!' then single (ifNext (rune '=') .tNe (.chr '!') us)
  else if c = rune '|' then single (ifNext (rune '|') .tOr (.chr '|') us)
  else if c = rune '&' then single (ifNext (rune '&') .tAnd (.chr '&') us)
  else if c = rune '.' then dot us
  else if c < 127 then single (.chr (Char.ofNat c.toNat), us)
  else (some ⟨.tChr, .chr c⟩, us)

/-- The inside of a string after `tok`. -/
def chars (tok : Str) : Runes → Str × Runes
  | [] => (tok, [])
  | c::us =>
    if c = rune '"' then (tok, us)
    else if c = rune '\\' then
      match us with
      | [] => (tok, [])
      | d::us => if d = rune '\n' then (tok, us) else chars (streamAddUtf tok d) us
    else if c = rune '\n' then (tok, us)
    else chars (streamAddUtf tok c) us

/-- What is left after a comment, if it ends. -/
def comment : Runes → Option Runes
  | [] => none
  | c::us =>
    if c = rune '*' then
      match us with
      | [] => none
      | d::us => if d = rune '/' then some us else comment us
    else comment us

def newlines (us : Runes) : ℕ := us.count (rune '\n')

theorem newlines_le {us vs : Runes} (h : vs <:+ us) : newlines vs ≤ newlines us :=
  h.sublist.count_le _

theorem newlines_append (us vs : Runes) : newlines (us ++ vs) = newlines us+newlines vs :=
  List.count_append

theorem newlines_cons (c : ℤ) (us : Runes) :
    newlines (c::us) = newlines us+if c = rune '\n' then 1 else 0 := by
  rw [newlines, List.count_cons, newlines]
  simp only [beq_iff_eq]

def textOf (tok : Str) (cs : Runes) : Str := cs.foldl streamAddUtf tok

inductive Event where
  | stop | space | comment
  | token (t : Token)
  deriving DecidableEq, Repr

structure Lexeme where
  token : Token
  hidden : ℕ
  text : Runes
  deriving DecidableEq, Repr

def Lexeme.mark (e : Lexeme) : Token × ℕ := (e.token, e.hidden)

section
variable (x : Library) (version : DbVersion)

def valueOf (n : Num) (ds : Runes) : Num :=
  ds.foldl (fun n c => n*10+BitVec.ofInt 64 (x.digitval c)) n

def objectDigits (negative : Bool) (us : Runes) : Option Token × Runes :=
  let ds := us.takeWhile x.isdigit
  let n := valueOf x 0 ds
  (if ds = [] then none else some ⟨.tObject, .object (if negative then -n else n)⟩,
    us.dropWhile x.isdigit)

def object (us : Runes) : Option Token × Runes :=
  if ahead us = rune '-' then objectDigits x true us.tail else objectDigits x false us

/-- A numeral with the value `n` and the text `tok`. -/
def numeral (isFloat : Bool) (n : Num) (tok : Str) : Option Token :=
  if isFloat then
    some ⟨.tFloat, .real (if x.isReal (x.strtod tok) then x.strtod tok else x.zero)⟩
  else some ⟨.tInteger, .integer n⟩

def exponentDigits (tok : Str) (us : Runes) : Option Token × Runes :=
  let ds := us.takeWhile x.isdigit
  (if ds = [] then none else numeral x true 0 (textOf tok ds), us.dropWhile x.isdigit)

def exponentSign (tok : Str) (us : Runes) : Option Token × Runes :=
  if ahead us = rune '+' ∨ ahead us = rune '-' then
    exponentDigits x (streamAddUtf tok (ahead us)) us.tail
  else exponentDigits x tok us

def exponent (isFloat : Bool) (n : Num) (tok : Str) (us : Runes) : Option Token × Runes :=
  if floats version ∧ (ahead us = rune 'e' ∨ ahead us = rune 'E') then
    exponentSign x (streamAddUtf tok (ahead us)) us.tail
  else (numeral x isFloat n tok, us)

/-- The dot before `us` is the first of an operator. -/
def Operator (us : Runes) : Prop :=
  ahead us = rune '.' ∨ ahead us = rune '|' ∨ ahead us = rune '&' ∨
    ahead us = rune '^' ∧ ahead us.tail = rune '.' ∧ x.isdigit (ahead us.tail.tail) = false

instance (us : Runes) : Decidable (Operator x us) := inferInstanceAs (Decidable (_ ∨ _))

/-- After the digits of a numeral. -/
def fraction (n : Num) (tok : Str) (us : Runes) : Option Token × Runes :=
  if floats version ∧ ahead us = rune '.' then
    if x.isdigit (ahead us.tail) then
      exponent x version true n
        (textOf (streamAddUtf tok (rune '.')) (us.tail.takeWhile x.isdigit))
        (us.tail.dropWhile x.isdigit)
    else if tok = [] then dot us.tail
    else if Operator x us.tail then (numeral x false n tok, us)
    else exponent x version true n (streamAddUtf tok (rune '.')) us.tail
  else exponent x version false n tok us

def number (us : Runes) : Option Token × Runes :=
  let ds := us.takeWhile x.isdigit
  fraction x version (valueOf x 0 ds) (textOf [] ds) (us.dropWhile x.isdigit)

def inWord (c : ℤ) : Bool := x.isXidCont c || decide (c = rune '_')

def wordToken (w : Str) : Token :=
  match findKeyword w with
  | some k =>
    if DbVersion.num k.version ≤ DbVersion.num version then
      ⟨k.token, if k.token = .tError then .error k.error else .none⟩
    else ⟨.tId, .string w⟩
  | none => ⟨.tId, .string w⟩

def word (c : ℤ) (us : Runes) : Option Token × Runes :=
  (some (wordToken version (textOf (streamAddUtf [] c) (us.takeWhile (inWord x)))),
    us.dropWhile (inWord x))

def string (us : Runes) : Option Token × Runes :=
  (some ⟨.tString, .string (chars [] us).1⟩, (chars [] us).2)

/-- The token that `c` begins. -/
def token (c : ℤ) (us : Runes) : Option Token × Runes :=
  if c = rune '#' then object x us
  else if x.isdigit c ∨ c = rune '.' ∧ floats version then number x version (c::us)
  else if x.isXidStart c ∨ c = rune '_' then word x version c us
  else if c = rune '"' then string us
  else other c us

def ended (r : Option Token × Runes) : Event × Runes :=
  match r with
  | (some t, us) => (.token t, us)
  | (none, us) => (.stop, us)

theorem ended_snd (r : Option Token × Runes) : (ended r).2 = r.2 := by
  rcases r with ⟨t, us⟩
  cases t with
  | none => rfl
  | some t => rfl

def step : Runes → Event × Runes
  | [] => (.stop, [])
  | c::us =>
    if x.isspace c then (.space, us)
    else if c = rune '/' then
      if ahead us = rune '*' then
        match comment us.tail with
        | some vs => (.comment, vs)
        | none => (.stop, [])
      else (.token ⟨.chr '/', .none⟩, us)
    else ended (token x version c us)

/-- The lexemes of a text, with `hidden` newlines hidden before it. -/
def scan : ℕ → ℕ → Runes → List Lexeme
  | 0, _, _ => []
  | fuel+1, hidden, us =>
    match step x version us with
    | (.stop, _) => []
    | (.space, vs) => scan fuel hidden vs
    | (.comment, vs) => scan fuel (hidden+(newlines us-newlines vs)) vs
    | (.token t, vs) => ⟨t, hidden, us⟩::scan fuel (hidden+(newlines us-newlines vs)) vs

def lexemes (us : Runes) : List Lexeme := scan x version (us.length+1) 0 us

/-- Whole spaces, comments and tokens lead from one text to another. -/
inductive Leads : Runes → Runes → Prop
  | refl {us : Runes} : Leads us us
  | step {us vs ws : Runes} {e : Event} (hs : step x version us = (e, vs)) (he : e ≠ .stop)
      (hl : Leads vs ws) : Leads us ws

/-- The same with the lexemes on the way and the newlines hidden before both texts. -/
inductive Passes : ℕ → Runes → List Lexeme → ℕ → Runes → Prop
  | done {h : ℕ} {us : Runes} : Passes h us [] h us
  | space {h h' : ℕ} {us vs ws : Runes} {es : List Lexeme}
      (hs : step x version us = (.space, vs)) (hp : Passes h vs es h' ws) : Passes h us es h' ws
  | comment {h h' : ℕ} {us vs ws : Runes} {es : List Lexeme}
      (hs : step x version us = (.comment, vs))
      (hp : Passes (h+(newlines us-newlines vs)) vs es h' ws) : Passes h us es h' ws
  | token {h h' : ℕ} {us vs ws : Runes} {t : Token} {es : List Lexeme}
      (hs : step x version us = (.token t, vs))
      (hp : Passes (h+(newlines us-newlines vs)) vs es h' ws) :
      Passes h us (⟨t, h, us⟩::es) h' ws

end

theorem ifNext_suffix {α : Type} (expect : ℤ) (ifyes ifno : α) (us : Runes) :
    (ifNext expect ifyes ifno us).2 <:+ us := by
  rw [ifNext]
  split
  · exact List.tail_suffix us
  · exact List.suffix_refl us

theorem tail_tail_suffix (us : Runes) : us.tail.tail <:+ us :=
  (List.tail_suffix _).trans (List.tail_suffix us)

theorem bitwise_suffix (us : Runes) : (bitwise us).2 <:+ us := by
  unfold bitwise
  split_ifs
  · exact List.suffix_refl us
  · exact tail_tail_suffix us
  · exact tail_tail_suffix us
  · exact tail_tail_suffix us
  · exact List.suffix_refl us

theorem rightshift_suffix {α : Type} (iftwo ifone ifnone : α) (us : Runes) :
    (rightshift iftwo ifone ifnone us).2 <:+ us := by
  rw [rightshift]
  split
  · exact (ifNext_suffix _ _ _ _).trans (List.tail_suffix us)
  · exact List.suffix_refl us

theorem single_suffix {r : Kind × Runes} {us : Runes} (h : r.2 <:+ us) : (single r).2 <:+ us := h

theorem orNext_suffix {r : Option Kind × Runes} {next : Runes → Kind × Runes} {us : Runes}
    (hr : r.2 <:+ us) (hn : ∀ vs, (next vs).2 <:+ vs) : (orNext r next).2 <:+ us := by
  rcases r with ⟨k, vs⟩
  cases k with
  | some k => exact hr
  | none => exact (hn vs).trans hr

theorem dot_suffix (us : Runes) : (dot us).2 <:+ us :=
  orNext_suffix (bitwise_suffix us) (ifNext_suffix _ _ _)

theorem other_suffix (c : ℤ) (us : Runes) : (other c us).2 <:+ us := by
  unfold other
  split_ifs
  · exact orNext_suffix (ifNext_suffix _ _ _ us) (rightshift_suffix _ _ _)
  · exact orNext_suffix (ifNext_suffix _ _ _ us) (ifNext_suffix _ _ _)
  · exact orNext_suffix (ifNext_suffix _ _ _ us) (ifNext_suffix _ _ _)
  · exact single_suffix (ifNext_suffix _ _ _ us)
  · exact single_suffix (ifNext_suffix _ _ _ us)
  · exact single_suffix (ifNext_suffix _ _ _ us)
  · exact dot_suffix us
  · exact List.suffix_refl us
  · exact List.suffix_refl us

theorem chars_suffix (tok : Str) (us : Runes) : (chars tok us).2 <:+ us := by
  induction tok, us using chars.induct with
  | case1 tok => exact List.suffix_refl []
  | case2 tok us =>
    rw [chars.eq_def]
    simp only [if_true]
    exact List.suffix_cons _ us
  | case3 tok hq =>
    rw [chars.eq_def]
    simp [hq]
  | case4 tok us hq =>
    rw [chars.eq_def]
    simp only [if_neg hq, if_true]
    exact ((List.suffix_cons _ us).trans (List.suffix_cons _ _))
  | case5 tok d us hq hd ih =>
    rw [chars.eq_def]
    simp only [if_neg hq, if_true, if_neg hd]
    exact ih.trans ((List.suffix_cons _ us).trans (List.suffix_cons _ _))
  | case6 tok us hq hb =>
    rw [chars.eq_def]
    simp only [if_neg hq, if_neg hb, if_true]
    exact List.suffix_cons _ us
  | case7 tok c us hq hb hn ih =>
    rw [chars.eq_def]
    simp only [if_neg hq, if_neg hb, if_neg hn]
    exact ih.trans (List.suffix_cons _ us)

theorem comment_suffix {us vs : Runes} (h : comment us = some vs) : vs <:+ us := by
  induction us using comment.induct with
  | case1 => simp [comment] at h
  | case2 => simp [comment] at h
  | case3 us =>
    simp only [comment, if_true] at h
    rw [← Option.some.inj h]
    exact (List.suffix_cons _ us).trans (List.suffix_cons _ _)
  | case4 d us hd ih =>
    simp only [comment, if_true, if_neg hd] at h
    exact (ih h).trans ((List.suffix_cons _ us).trans (List.suffix_cons _ _))
  | case5 c us hc ih =>
    rw [comment.eq_def] at h
    simp only [if_neg hc] at h
    exact (ih h).trans (List.suffix_cons _ us)

section
variable (x : Library) (version : DbVersion)

theorem object_suffix (us : Runes) : (object x us).2 <:+ us := by
  rw [object]
  split
  · exact (List.dropWhile_suffix _).trans (List.tail_suffix us)
  · exact List.dropWhile_suffix _

theorem exponentSign_suffix (tok : Str) (us : Runes) : (exponentSign x tok us).2 <:+ us := by
  rw [exponentSign]
  split
  · exact (List.dropWhile_suffix _).trans (List.tail_suffix us)
  · exact List.dropWhile_suffix _

theorem exponent_suffix (isFloat : Bool) (n : Num) (tok : Str) (us : Runes) :
    (exponent x version isFloat n tok us).2 <:+ us := by
  rw [exponent]
  split
  · exact (exponentSign_suffix x _ _).trans (List.tail_suffix us)
  · exact List.suffix_refl us

theorem fraction_suffix (n : Num) (tok : Str) (us : Runes) :
    (fraction x version n tok us).2 <:+ us := by
  unfold fraction
  split_ifs
  · exact (exponent_suffix x version _ _ _ _).trans
      ((List.dropWhile_suffix _).trans (List.tail_suffix us))
  · exact (dot_suffix _).trans (List.tail_suffix us)
  · exact List.suffix_refl us
  · exact (exponent_suffix x version _ _ _ _).trans (List.tail_suffix us)
  · exact exponent_suffix x version _ _ _ _

/-- A number takes its first character. -/
theorem number_suffix {c : ℤ} (us : Runes)
    (hc : x.isdigit c = true ∨ c = rune '.' ∧ floats version) :
    (number x version (c::us)).2 <:+ us := by
  by_cases hd : x.isdigit c = true
  · refine (fraction_suffix x version _ _ _).trans ?_
    rw [List.dropWhile_cons_of_pos hd]
    exact List.dropWhile_suffix _
  · obtain ⟨rfl, hv⟩ := hc.resolve_left hd
    rw [number, List.takeWhile_cons_of_neg hd, List.dropWhile_cons_of_neg hd, fraction,
      if_pos ⟨hv, rfl⟩]
    split_ifs with h₁ h₂
    · exact (exponent_suffix x version _ _ _ _).trans (List.dropWhile_suffix _)
    · exact dot_suffix us
    · exact absurd rfl h₂
    · exact absurd rfl h₂

theorem token_suffix (c : ℤ) (us : Runes) : (token x version c us).2 <:+ us := by
  unfold token
  split_ifs with h₁ h₂ h₃ h₄
  · exact object_suffix x us
  · exact number_suffix x version us h₂
  · exact List.dropWhile_suffix _
  · exact chars_suffix [] us
  · exact other_suffix c us

theorem step_space {c : ℤ} (h : x.isspace c = true) (us : Runes) :
    step x version (c::us) = (.space, us) := if_pos h

theorem step_comment (h : ¬ x.isspace (rune '/') = true) (us : Runes) :
    step x version (rune '/'::rune '*'::us) =
      match comment us with
      | some vs => (.comment, vs)
      | none => (.stop, []) := by
  rw [step, if_neg h, if_pos rfl, if_pos (show ahead (rune '*'::us) = rune '*' from rfl),
    List.tail_cons]

theorem step_slash (h : ¬ x.isspace (rune '/') = true) {us : Runes} (ha : ahead us ≠ rune '*') :
    step x version (rune '/'::us) = (.token ⟨.chr '/', .none⟩, us) := by
  rw [step, if_neg h, if_pos rfl, if_neg ha]

theorem step_token {c : ℤ} (h : ¬ x.isspace c = true) (hd : c ≠ rune '/') (us : Runes) :
    step x version (c::us) = ended (token x version c us) := by
  rw [step, if_neg h, if_neg hd]

/-- A step takes at least a character. -/
theorem step_suffix {us vs : Runes} {e : Event} (h : step x version us = (e, vs))
    (he : e ≠ .stop) : ∃ c r, us = c::r ∧ vs <:+ r := by
  cases us with
  | nil => exact absurd (Prod.mk.inj h).1.symm he
  | cons c us =>
    refine ⟨c, us, rfl, ?_⟩
    rw [step] at h
    split_ifs at h with h₁ h₂ h₃
    · rw [← (Prod.mk.inj h).2]
    · split at h
      · rename_i r hr
        rw [← (Prod.mk.inj h).2]
        exact (comment_suffix hr).trans (List.tail_suffix us)
      · exact absurd (Prod.mk.inj h).1.symm he
    · rw [← (Prod.mk.inj h).2]
    · have ht := token_suffix x version c us
      rw [← (show _ = vs from congrArg Prod.snd h)]
      rw [ended_snd]
      exact ht

theorem step_length {us vs : Runes} {e : Event} (h : step x version us = (e, vs))
    (he : e ≠ .stop) : vs.length < us.length := by
  obtain ⟨c, r, rfl, hs⟩ := step_suffix x version h he
  exact Nat.lt_succ_of_le hs.length_le

theorem scan_fuel {fuel fuel' : ℕ} {us : Runes} (hf : us.length < fuel)
    (hf' : us.length < fuel') (hidden : ℕ) :
    scan x version fuel hidden us = scan x version fuel' hidden us := by
  induction fuel generalizing fuel' us hidden with
  | zero => exact absurd hf (Nat.not_lt_zero _)
  | succ fuel ih =>
    obtain ⟨fuel', rfl⟩ : ∃ m, fuel' = m+1 := ⟨fuel'-1, by omega⟩
    rw [scan, scan]
    rcases hs : step x version us with ⟨e, vs⟩
    cases e with
    | stop => rfl
    | space =>
      have hl := step_length x version hs (by simp)
      exact ih (by omega) (by omega) hidden
    | comment =>
      have hl := step_length x version hs (by simp)
      exact ih (by omega) (by omega) _
    | token t =>
      have hl := step_length x version hs (by simp)
      exact congrArg (_ :: ·) (ih (by omega) (by omega) _)

end

section
variable {x : Library} {version : DbVersion}

theorem Leads.suffix {us vs : Runes} (hl : Leads x version us vs) : vs <:+ us := by
  induction hl with
  | refl => exact List.suffix_refl _
  | step hs he _ ih =>
    obtain ⟨c, r, rfl, hr⟩ := step_suffix x version hs he
    exact (ih.trans hr).trans (List.suffix_cons c r)

theorem Passes.suffix {h h' : ℕ} {us vs : Runes} {es : List Lexeme}
    (hp : Passes x version h us es h' vs) : vs <:+ us := by
  induction hp with
  | done => exact List.suffix_refl _
  | space hs _ ih | comment hs _ ih | token hs _ ih =>
    obtain ⟨c, r, rfl, hr⟩ := step_suffix x version hs (by simp)
    exact (ih.trans hr).trans (List.suffix_cons c r)

theorem Passes.trans {h h' h'' : ℕ} {us vs ws : Runes} {es es' : List Lexeme}
    (hp : Passes x version h us es h' vs) (hq : Passes x version h' vs es' h'' ws) :
    Passes x version h us (es ++ es') h'' ws := by
  induction hp with
  | done => exact hq
  | space hs _ ih => exact .space hs (ih hq)
  | comment hs _ ih => exact .comment hs (ih hq)
  | token hs _ ih => exact .token hs (ih hq)

/-- What a text passes through comes before the lexemes of what is left. -/
theorem scan_passes {h h' : ℕ} {us vs : Runes} {es : List Lexeme}
    (hp : Passes x version h us es h' vs) {fuel fuel' : ℕ} (hf : us.length < fuel)
    (hf' : vs.length < fuel') :
    scan x version fuel h us = es ++ scan x version fuel' h' vs := by
  induction hp generalizing fuel with
  | done => exact scan_fuel x version hf hf' _
  | space hs _ ih | comment hs _ ih =>
    obtain ⟨fuel, rfl⟩ : ∃ m, fuel = m+1 := ⟨fuel-1, by omega⟩
    have hl := step_length x version hs (by simp)
    rw [scan, hs]
    exact ih (by omega) hf'
  | token hs _ ih =>
    obtain ⟨fuel, rfl⟩ : ∃ m, fuel = m+1 := ⟨fuel-1, by omega⟩
    have hl := step_length x version hs (by simp)
    rw [scan, hs]
    exact congrArg (_ :: ·) (ih (by omega) hf')

theorem lexemes_passes {h : ℕ} {us vs : Runes} {es : List Lexeme}
    (hp : Passes x version 0 us es h vs) :
    lexemes x version us = es ++ scan x version (vs.length+1) h vs :=
  scan_passes hp (Nat.lt_succ_self _) (Nat.lt_succ_self _)

/-- Leading white space is passed. -/
theorem passes_spaces (h : ℕ) (us : Runes) :
    Passes x version h us [] h (us.dropWhile x.isspace) := by
  induction us with
  | nil => exact .done
  | cons c us ih =>
    by_cases hc : x.isspace c = true
    · rw [List.dropWhile_cons_of_pos hc]
      exact .space (by rw [step, if_pos hc]) ih
    · rw [List.dropWhile_cons_of_neg hc]
      exact .done

end

end LambdaMoo.Lexemes
