import LambdaMoo.Runes
import LambdaMoo.Tokens

/-!
# The lexer

`yylex` reads runes through the client decoder and a small buffer of runes
pushed back. What a character is, and what a floating-point numeral stands
for, is answered by libraries outside the server. The loops recurse on the
number of characters that are left.
-/

set_option autoImplicit false

namespace LambdaMoo.Parse
open LambdaMoo.Utf LambdaMoo.DbIo

structure Library where
  isdigit : ℤ → Bool
  digitval : ℤ → ℤ
  isspace : ℤ → Bool
  isXidStart : ℤ → Bool
  isXidCont : ℤ → Bool
  strtod : Str → Fnum
  isReal : Fnum → Bool
  zero : Fnum
  neg : Fnum → Fnum

structure Complaint where
  lineno : ℕ
  text : String
  name : Option Str
  deriving DecidableEq, Repr

/-- `unget` has the rune pushed back last first; `warns` is whether the client takes warnings. -/
structure Lexer where
  unget : List ℤ
  getcState : ℤ
  client : Source
  lineno : ℕ
  errors : List Complaint
  warnings : List Complaint
  warns : Bool
  mustRename : Bool
  deriving DecidableEq, Repr

def Lexer.error (L : Lexer) (text : String) (name : Option Str) : Lexer :=
  {L with errors := L.errors ++ [⟨L.lineno, text, name⟩]}

def Lexer.warning (L : Lexer) (text : String) (name : Option Str) : Lexer :=
  if L.warns then {L with warnings := L.warnings ++ [⟨L.lineno, text, name⟩]}
  else L.error text name

def Lexer.left (L : Lexer) : ℕ := L.unget.length+L.client.bytes.length+2

def lexGetc (L : Lexer) : ℤ × Lexer :=
  match L.unget with
  | c::cs => (c, {L with unget := cs})
  | [] =>
    let r := getUtfCall L.getcState L.client
    (r.1, {L with getcState := r.2.1, client := r.2.2})

def lexUngetc (c : ℤ) (L : Lexer) : Lexer := {L with unget := c::L.unget}

def follow {α : Type} (expect : ℤ) (ifyes ifno : α) (L : Lexer) : α × Lexer :=
  let r := lexGetc L
  if r.1 = expect then (ifyes, r.2) else (ifno, lexUngetc r.1 r.2)

def checkbitwise (L : Lexer) : Option Kind × Lexer :=
  let r₁ := lexGetc L
  let r₂ := lexGetc r₁.2
  let back := lexUngetc r₁.1 (lexUngetc r₂.1 r₂.2)
  if r₂.1 ≠ rune '.' then (none, back)
  else if r₁.1 = rune '&' then (some .tBitand, r₂.2)
  else if r₁.1 = rune '|' then (some .tBitor, r₂.2)
  else if r₁.1 = rune '^' then (some .tBitxor, r₂.2)
  else (none, back)

def checkrightshift {α : Type} (iftwo ifone ifnone : α) (L : Lexer) : α × Lexer :=
  let r₁ := lexGetc L
  if r₁.1 = rune '>' then
    let r₂ := lexGetc r₁.2
    if r₂.1 = rune '>' then (iftwo, r₂.2) else (ifone, lexUngetc r₂.1 r₂.2)
  else (ifnone, lexUngetc r₁.1 r₁.2)

def plain (r : Kind × Lexer) : Option Token × Lexer := (some ⟨r.1, .none⟩, r.2)

/-- The first look-ahead, and where it fails the second. -/
def orElse (r : Option Kind × Lexer) (next : Lexer → Kind × Lexer) : Option Token × Lexer :=
  match r with
  | (some k, L) => plain (k, L)
  | (none, L) => plain (next L)

def lexDot (L : Lexer) : Option Token × Lexer :=
  orElse (checkbitwise L) (follow (rune '.') .tTo (.chr '.'))

/-- The switch on a character that starts no longer token. -/
def lexOther (c : ℤ) (L : Lexer) : Option Token × Lexer :=
  if c = rune '>' then
    orElse (follow (rune '=') (some .tGe) none L) (checkrightshift .tLshr .tShr (.chr '>'))
  else if c = rune '<' then
    orElse (follow (rune '=') (some .tLe) none L) (follow (rune '<') .tShl (.chr '<'))
  else if c = rune '=' then
    orElse (follow (rune '=') (some .tEq) none L) (follow (rune '>') .tArrow (.chr '='))
  else if c = rune '!' then plain (follow (rune '=') .tNe (.chr '!') L)
  else if c = rune '|' then plain (follow (rune '|') .tOr (.chr '|') L)
  else if c = rune '&' then plain (follow (rune '&') .tAnd (.chr '&') L)
  else if c = rune '.' then lexDot L
  else if c < 127 then plain (.chr (Char.ofNat c.toNat), L)
  else (some ⟨.tChr, .chr c⟩, L)

section
variable (x : Library) (version : DbVersion)

def floats : Prop := DbVersion.num .float ≤ DbVersion.num version

instance : Decidable (floats version) := inferInstanceAs (Decidable (_ ≤ _))

/-- White space and the character after it. -/
def skipSpace : ℕ → Lexer → ℤ × Lexer
  | 0, L => (EOF, L)
  | fuel+1, L =>
    let r := lexGetc L
    let L' := if r.1 = rune '\n' then {r.2 with lineno := r.2.lineno+1} else r.2
    if r.1 ≠ EOF ∧ x.isspace r.1 then skipSpace fuel L' else (r.1, L')

/-- The inside of a comment; `false` is the end of the program there. -/
def skipComment : ℕ → Lexer → Bool × Lexer
  | 0, L => (false, L)
  | fuel+1, L =>
    let r := lexGetc L
    if r.1 = rune '*' then
      let r := lexGetc r.2
      if r.1 = rune '/' then (true, r.2)
      else if r.1 = EOF then (false, r.2)
      else skipComment fuel r.2
    else if r.1 = EOF then (false, r.2)
    else skipComment fuel r.2

/-- The digits from `c` on, as a number and as text, and the character after them. -/
def lexDigits : ℕ → Num → Str → ℤ → Lexer → Num × Str × ℤ × Lexer
  | 0, n, tok, c, L => (n, tok, c, L)
  | fuel+1, n, tok, c, L =>
    if x.isdigit c then
      let r := lexGetc L
      lexDigits fuel (n*10+BitVec.ofInt 64 (x.digitval c)) (streamAddUtf tok c) r.1 r.2
    else (n, tok, c, L)

def lexObject (L : Lexer) : Option Token × Lexer :=
  let r := lexGetc L
  let negative := decide (r.1 = rune '-')
  let r := if negative then lexGetc r.2 else r
  if x.isdigit r.1 then
    let d := lexDigits x r.2.left 0 [] r.1 r.2
    (some ⟨.tObject, .object (if negative then -d.1 else d.1)⟩, lexUngetc d.2.2.1 d.2.2.2)
  else (none, lexUngetc r.1 (r.2.error "Malformed object number" none))

/-- A numeral so far, and the character after it. -/
structure Scan where
  isFloat : Bool
  tok : Str
  c : ℤ
  lexer : Lexer
  deriving DecidableEq, Repr

/-- `c` and the digits after it. -/
def lexMoreDigits : ℕ → Str → ℤ → Lexer → Scan
  | 0, tok, c, L => ⟨true, tok, c, L⟩
  | fuel+1, tok, c, L =>
    let r := lexGetc L
    let tok := streamAddUtf tok c
    if x.isdigit r.1 then lexMoreDigits fuel tok r.1 r.2 else ⟨true, tok, r.1, r.2⟩

/-- Whether `^` after a dot begins the operator of exclusive or. -/
def peekXor (L : Lexer) : Bool × Lexer :=
  let r₁ := lexGetc L
  let r₂ := lexGetc r₁.2
  let r₃ := lexGetc r₂.2
  (decide (r₂.1 = rune '.' ∧ x.isdigit r₃.1 = false),
    lexUngetc r₁.1 (lexUngetc r₂.1 (lexUngetc r₃.1 r₃.2)))

/-- After a dot; an error is the jump to `normal_dot`. -/
def lexFraction (s : Scan) : Except Lexer Scan :=
  let r := lexGetc s.lexer
  let L := lexUngetc r.1 r.2
  if x.isdigit r.1 then .ok (lexMoreDigits x L.left s.tok s.c L)
  else if s.tok = [] then .error L
  else if r.1 ≠ rune '.' ∧ r.1 ≠ rune '|' ∧ r.1 ≠ rune '&' then
    let p := if r.1 = rune '^' then peekXor x L else (false, L)
    if p.1 then .ok {s with lexer := p.2}
    else
      let r := lexGetc p.2
      .ok ⟨true, streamAddUtf s.tok s.c, r.1, r.2⟩
  else .ok {s with lexer := L}

/-- After an `e`; an error is the return of 0. -/
def lexExponent (s : Scan) : Except Lexer Scan :=
  let tok := streamAddUtf s.tok s.c
  let r := lexGetc s.lexer
  let signed := decide (r.1 = rune '+' ∨ r.1 = rune '-')
  let tok := if signed then streamAddUtf tok r.1 else tok
  let r := if signed then lexGetc r.2 else r
  if x.isdigit r.1 then .ok (lexMoreDigits x r.2.left tok r.1 r.2)
  else .error (lexUngetc r.1 (r.2.error "Malformed floating-point literal" none))

def finishNumber (n : Num) (s : Scan) : Option Token × Lexer :=
  let L := lexUngetc s.c s.lexer
  if s.isFloat then
    let d := x.strtod s.tok
    if x.isReal d then (some ⟨.tFloat, .real d⟩, L)
    else (some ⟨.tFloat, .real x.zero⟩, L.error "Floating-point literal out of range" none)
  else (some ⟨.tInteger, .integer n⟩, L)

def lexNumber (c : ℤ) (L : Lexer) : Option Token × Lexer :=
  let d := lexDigits x L.left 0 [] c L
  let s : Scan := ⟨false, d.2.1, d.2.2.1, d.2.2.2⟩
  match if floats version ∧ s.c = rune '.' then lexFraction x s else .ok s with
  | .error L => lexDot L
  | .ok s =>
    match if floats version ∧ (s.c = rune 'e' ∨ s.c = rune 'E') then lexExponent x s
      else .ok s with
    | .error L => (none, L)
    | .ok s => finishNumber x d.1 s

/-- The rest of a word and the character after it. -/
def lexCont : ℕ → Str → Lexer → Str × ℤ × Lexer
  | 0, tok, L => (tok, EOF, L)
  | fuel+1, tok, L =>
    let r := lexGetc L
    if x.isXidCont r.1 ∨ r.1 = rune '_' then lexCont fuel (streamAddUtf tok r.1) r.2
    else (tok, r.1, r.2)

def lexWord (c : ℤ) (L : Lexer) : Option Token × Lexer :=
  let w := lexCont x L.left (streamAddUtf [] c) L
  let L := lexUngetc w.2.1 w.2.2
  match findKeyword w.1 with
  | some k =>
    if DbVersion.num k.version ≤ DbVersion.num version then
      (some ⟨k.token, if k.token = .tError then .error k.error else .none⟩, L)
    else
      let L := if L.mustRename then L
        else L.warning "Renaming old use of new keyword: " (some w.1)
      (some ⟨.tId, .string w.1⟩, {L with mustRename := true})
  | none => (some ⟨.tId, .string w.1⟩, L)

/-- The inside of a string, up to its closing quote. -/
def lexChars : ℕ → Str → Lexer → Str × Lexer
  | 0, tok, L => (tok, L)
  | fuel+1, tok, L =>
    let r := lexGetc L
    if r.1 = rune '"' then (tok, r.2)
    else
      let r := if r.1 = rune '\\' then lexGetc r.2 else r
      if r.1 = rune '\n' ∨ r.1 = EOF then (tok, r.2.error "Missing quote" none)
      else lexChars fuel (streamAddUtf tok r.1) r.2

def lexString (L : Lexer) : Option Token × Lexer :=
  let r := lexChars L.left [] L
  (some ⟨.tString, .string r.1⟩, r.2)

/-- A token from its first character on. -/
def lexFrom (c : ℤ) (L : Lexer) : Option Token × Lexer :=
  if c = rune '#' then lexObject x L
  else if x.isdigit c ∨ c = rune '.' ∧ floats version then lexNumber x version c L
  else if x.isXidStart c ∨ c = rune '_' then lexWord x version c L
  else if c = rune '"' then lexString L
  else lexOther c L

/-- The next token; `none` stands for the returns of 0 and of `EOF`. -/
def yylexFuel : ℕ → Lexer → Option Token × Lexer
  | 0, L => (none, L)
  | fuel+1, L =>
    let r := skipSpace x L.left L
    if r.1 = EOF then (none, r.2)
    else if r.1 = rune '/' then
      let r := lexGetc r.2
      if r.1 = rune '*' then
        let e := skipComment r.2.left r.2
        if e.1 then yylexFuel fuel e.2
        else (none, e.2.error "End of program while in a comment" none)
      else (some ⟨.chr '/', .none⟩, lexUngetc r.1 r.2)
    else lexFrom x version r.1 r.2

def yylex (L : Lexer) : Option Token × Lexer := yylexFuel x version L.left L

/-- The tokens up to the end that `yylex` reports. -/
def tokensFuel : ℕ → Lexer → List Token × Lexer
  | 0, L => ([], L)
  | fuel+1, L =>
    match yylex x version L with
    | (none, L) => ([], L)
    | (some t, L) =>
      let r := tokensFuel fuel L
      (t::r.1, r.2)

def tokens (L : Lexer) : List Token × Lexer := tokensFuel x version L.left L

end

/-! The client that reads a list of strings, one line each. -/

def myGetc : List Str → ℤ × List Str
  | [] => (EOF, [])
  | []::code => (rune '\n', code)
  | (c::s)::code => (int c, s::code)

def listSource (code : List Str) : Source := ⟨code.flatMap (· ++ [10]), 0⟩

theorem myGetc_source (code : List Str) :
    (myGetc code).1 = (listSource code).getch.1 ∧
      (listSource (myGetc code).2).bytes = (listSource code).getch.2.bytes := by
  cases code with
  | nil => exact ⟨rfl, rfl⟩
  | cons s code =>
    cases s with
    | nil => exact ⟨rfl, rfl⟩
    | cons c s => exact ⟨rfl, rfl⟩

/-- The lexer as `parse_list_as_program` starts it; its client has no warnings. -/
def startLexer (code : List Str) : Lexer where
  unget := []
  getcState := -1
  client := listSource code
  lineno := 1
  errors := []
  warnings := []
  warns := false
  mustRename := false

end LambdaMoo.Parse
