import LambdaMoo.Decimal
import LambdaMoo.Lexer

/-!
# Literals

`print_to_stream` writes a value as a MOO expression: strings byte by byte,
with a backslash before quotes and backslashes. The lexer reads the text back
rune by rune. This module follows the lexer along that text.
-/

set_option autoImplicit false

namespace LambdaMoo.Parse
open LambdaMoo.Utf LambdaMoo.DbIo LambdaMoo.Decimal

/-- How the values print that are not built from literals. -/
structure Printer where
  float2str : Fnum → Str
  waif : WaifRef → Objid × Objid

def escape : Str → Str
  | [] => []
  | b::s => if b = 34 ∨ b = 92 then 92::b::escape s else b::escape s

mutual
def printToStream (p : Printer) : Var → Str
  | .int m => print m.toInt
  | .obj m => 35::print m.toInt
  | .err e => ascii (errorName e)
  | .float d => p.float2str d
  | .str s => 34::(escape s ++ [34])
  | .list vs => 123::(printElements p [] vs ++ [125])
  | .waif w => ascii "[[class = #" ++ print (p.waif w).1.toInt ++ ascii ", owner = #"
      ++ print (p.waif w).2.toInt ++ ascii "]]"
  | _ => ascii ">>Unknown value<<"
def printElements (p : Printer) (sep : Str) : List Var → Str
  | [] => []
  | v::vs => sep ++ printToStream p v ++ printElements p (ascii ", ") vs
end

def valueToLiteral (p : Printer) (v : Var) : Str := printToStream p v

/-- Well-formed UTF-8: the encoding of some Unicode scalar values. -/
def encode (cs : List Char) : Str := cs.flatMap String.utf8EncodeChar

mutual
/-- Built from integers, objects, errors, lists and strings of well-formed UTF-8 without a
newline; no string has a NUL inside. -/
def Literal : Var → Prop
  | .int _ | .obj _ | .err _ => True
  | .str s => (∃ cs, s = encode cs) ∧ 10 ∉ s ∧ 0 ∉ s
  | .list vs => LiteralAll vs
  | _ => False
def LiteralAll : List Var → Prop
  | [] => True
  | v::vs => Literal v ∧ LiteralAll vs
end

def isAlpha (b : Byte) : Bool := 65 ≤ b.toNat && b.toNat ≤ 90 || 97 ≤ b.toNat && b.toNat ≤ 122

/-- What the Unicode character database says about the ASCII characters. -/
structure Library.Ascii (x : Library) : Prop where
  digit : ∀ b : Byte, b.toNat < 128 → x.isdigit (int b) = isDigit b
  val : ∀ b : Byte, isDigit b = true → x.digitval (int b) = b.toNat-48
  space : ∀ b : Byte, b.toNat < 128 → x.isspace (int b) = DbIo.isspace b
  start : ∀ b : Byte, b.toNat < 128 → x.isXidStart (int b) = isAlpha b
  cont : ∀ b : Byte, b.toNat < 128 → x.isXidCont (int b) = (isAlpha b || isDigit b || b = 95)

/-- The lexer has nothing pushed back and the bytes `bs` before it. -/
structure Fresh (L : Lexer) (bs : List Byte) : Prop where
  unget : L.unget = []
  state : L.getcState = -1
  bytes : L.client.bytes = bs
  quiet : L.errors = []

/-- The lexer has the bytes `bs` before it, the first of them perhaps pushed back. -/
inductive Reading : Lexer → List Byte → Prop
  | fresh {L : Lexer} {bs : List Byte} (h : Fresh L bs) : Reading L bs
  | back {L : Lexer} {bs : List Byte} {b : Byte} (hb : b.toNat < 128) (h : Fresh L bs) :
      Reading (lexUngetc (int b) L) (b::bs)

theorem Fresh.next {L : Lexer} {bs : List Byte} {c : ℤ} {s : Source} (h : Fresh L bs)
    (hg : getUtfCall (-1) L.client = (c, -1, s)) :
    (lexGetc L).1 = c ∧ Fresh (lexGetc L).2 s.bytes := by
  obtain ⟨hu, hs, -, hq⟩ := h
  have hl : lexGetc L = (c, {L with getcState := -1, client := s}) := by
    simp only [lexGetc, hu, hs, hg]
  rw [hl]
  exact ⟨rfl, ⟨hu, rfl, rfl, hq⟩⟩

theorem Fresh.source {L : Lexer} {bs : List Byte} (h : Fresh L bs) :
    L.client = ⟨bs,L.client.eofs⟩ := by
  rw [← h.bytes]

theorem Fresh.rune {L : Lexer} {c : Char} {bs : List Byte}
    (h : Fresh L (String.utf8EncodeChar c ++ bs)) :
    (lexGetc L).1 = rune c ∧ Fresh (lexGetc L).2 bs := by
  have hg := getUtfCall_char c bs L.client.eofs
  rw [← h.source] at hg
  exact h.next hg

theorem Fresh.getc {L : Lexer} {b : Byte} {bs : List Byte} (h : Fresh L (b::bs))
    (hb : b.toNat < 128) : (lexGetc L).1 = int b ∧ Fresh (lexGetc L).2 bs := by
  have hg := getUtfCall_ascii hb bs L.client.eofs
  rw [← h.source] at hg
  exact h.next hg

theorem Fresh.eof {L : Lexer} (h : Fresh L []) :
    (lexGetc L).1 = EOF ∧ Fresh (lexGetc L).2 [] := by
  have hg : getUtfCall (-1) L.client = (EOF, -1, ⟨[],L.client.eofs+1⟩) := by
    rw [h.source]
    rfl
  exact h.next hg

theorem Reading.getc {L : Lexer} {b : Byte} {bs : List Byte} (h : Reading L (b::bs))
    (hb : b.toNat < 128) : (lexGetc L).1 = int b ∧ Fresh (lexGetc L).2 bs := by
  cases h with
  | fresh h => exact h.getc hb
  | back _ h => exact ⟨rfl, ⟨h.unget, h.state, h.bytes, h.quiet⟩⟩

theorem Fresh.left {L : Lexer} {bs : List Byte} (h : Fresh L bs) : L.left = bs.length+2 := by
  simp [Lexer.left, h.unget, h.bytes]

theorem Reading.left {L : Lexer} {bs : List Byte} (h : Reading L bs) : L.left = bs.length+2 := by
  cases h with
  | fresh h => exact h.left
  | back _ h => simp [Lexer.left, lexUngetc, h.unget, h.bytes]; omega

theorem int_eq_rune {b : Byte} {c : Char} : int b = rune c ↔ b.toNat = c.val.toNat := by
  rw [int, Utf.rune]
  omega

theorem rune_inj {c d : Char} : rune c = rune d ↔ c = d := by
  constructor
  · intro h
    apply Char.ext
    apply UInt32.toNat_inj.mp
    rw [Utf.rune, Utf.rune] at h
    omega
  · intro h
    rw [h]

theorem rune_ne_eof (c : Char) : rune c ≠ EOF := by
  rw [Utf.rune, EOF]
  omega

theorem streamAddUtf_ascii {b : Byte} (hb : b.toNat < 128) (tok : Str) :
    streamAddUtf tok (int b) = tok ++ [b] := by
  have hv : (int b % 2^32).toNat = b.toNat := by
    rw [int]
    omega
  have hp : putUtf (int b) = some [b] := by
    simp only [putUtf, hv]
    rw [if_pos (by omega), UInt8.ofNat_toNat]
  rw [streamAddUtf, hp]
  rfl

theorem streamAddUtf_char (c : Char) (tok : Str) :
    streamAddUtf tok (rune c) = tok ++ String.utf8EncodeChar c := by
  rw [streamAddUtf, putUtf_char]
  rfl

/-- A byte at which a number or a word ends. -/
structure Ends (d : Byte) : Prop where
  ascii : d.toNat < 128
  digit : isDigit d = false
  alpha : isAlpha d = false
  underscore : d ≠ 95
  dot : d ≠ 46

theorem Ends.ne_rune {d : Byte} (h : Ends d) {c : Char} (hc : isAlpha (charByte c) = true)
    (ha : c.val.toNat < 128) : int d ≠ rune c := by
  intro he
  have hd : d = charByte c := by
    apply UInt8.toNat_inj.mp
    rw [int_eq_rune.mp he, charByte, UInt8.toNat_ofNat']
    exact (Nat.mod_eq_of_lt (by change c.val.toNat < 256; omega)).symm
  rw [← hd, h.alpha] at hc
  exact Bool.false_ne_true hc

section
variable {x : Library} (hx : x.Ascii)
include hx

/-- The digits from `b` on, when they end at `d`, have the value that `scan` gives them. -/
theorem lexDigits_scan {ds : List Byte} (hds : ∀ d ∈ ds, isDigit d = true) {d : Byte}
    (hd : d.toNat < 128) (hnd : isDigit d = false) {bs rest : List Byte} {b : Byte}
    (hb : b::rest = ds ++ d::bs) {fuel : ℕ} (hf : ds.length < fuel) {L : Lexer}
    (hL : Fresh L rest) (acc : ℕ) (tok : Str) :
    ∃ tok' L', lexDigits x fuel (BitVec.ofNat 64 acc) tok (int b) L =
      (BitVec.ofNat 64 (scan acc (b::rest)).1, tok', int d, L') ∧ Fresh L' bs := by
  induction ds generalizing b rest fuel acc L tok with
  | nil =>
    obtain ⟨rfl, rfl⟩ : b = d ∧ rest = bs := by simpa using hb
    obtain ⟨fuel, rfl⟩ : ∃ m, fuel = m+1 := ⟨fuel-1, by simp at hf; omega⟩
    refine ⟨tok, L, ?_, hL⟩
    simp [lexDigits, hx.digit _ hd, hnd, scan]
  | cons e ds ih =>
    obtain ⟨rfl, rfl⟩ : b = e ∧ rest = ds ++ d::bs := by simpa using hb
    obtain ⟨fuel, rfl⟩ : ∃ m, fuel = m+1 := ⟨fuel-1, by simp at hf; omega⟩
    have hbd : isDigit b = true := hds b List.mem_cons_self
    have hb128 : b.toNat < 128 := by
      have := (isDigit_toNat hbd).2
      omega
    obtain ⟨b', rest', hr⟩ : ∃ b' rest', ds ++ d::bs = b'::rest' :=
      List.exists_cons_of_ne_nil (by simp)
    have hb' : b'.toNat < 128 := by
      cases ds with
      | nil =>
        obtain ⟨rfl, -⟩ : d = b' ∧ bs = rest' := by simpa using hr
        exact hd
      | cons e ds =>
        obtain ⟨rfl, -⟩ : e = b' ∧ ds ++ d::bs = rest' := by simpa using hr
        have := (isDigit_toNat (hds e (by simp))).2
        omega
    obtain ⟨hc, hL'⟩ := Fresh.getc (hr ▸ hL) hb'
    have hval : BitVec.ofNat 64 acc*10+BitVec.ofInt 64 (x.digitval (int b)) =
        BitVec.ofNat 64 (10*acc+(b.toNat-48)) := by
      have h48 := (isDigit_toNat hbd).1
      have hsub : ((b.toNat : ℤ)-48) = ((b.toNat-48 : ℕ) : ℤ) := by omega
      rw [hx.val b hbd, hsub, BitVec.ofInt_natCast, Nat.mul_comm 10 acc, BitVec.ofNat_add,
        BitVec.ofNat_mul]
      rfl
    obtain ⟨tok', L', h, hfr⟩ := ih (fun e he => hds e (List.mem_cons_of_mem _ he)) hr.symm
      (by simp at hf; omega) hL' (10*acc+(b.toNat-48)) (streamAddUtf tok (int b))
    refine ⟨tok', L', ?_, hfr⟩
    rw [lexDigits, if_pos ((hx.digit b hb128).trans hbd), hval]
    dsimp only
    rw [hc, h, ← hr]
    conv_rhs => rw [scan, if_pos hbd]

theorem lexNumber_printNat {d : Byte} (hd : Ends d) {bs rest : List Byte} {b : Byte} {m : ℕ}
    (hb : printNat m ++ d::bs = b::rest) {L : Lexer} (hL : Fresh L rest) (version : DbVersion) :
    ∃ L', lexNumber x version (int b) L =
      (some ⟨.tInteger, .integer (BitVec.ofNat 64 m)⟩, lexUngetc (int d) L') ∧ Fresh L' bs := by
  have hf : (printNat m).length < L.left := by
    have := congrArg List.length hb
    simp only [List.length_append, List.length_cons] at this
    rw [hL.left]
    omega
  obtain ⟨tok, L', h, hL'⟩ := lexDigits_scan hx (fun d hd => printNat_isDigit hd) hd.ascii
    hd.digit hb.symm hf hL 0 []
  have hs : scan 0 (b::rest) = (m, d::bs) := by
    rw [← hb]
    exact scan_printNat m (stops_cons hd.digit)
  rw [hs] at h
  have hdot : int d ≠ rune '.' := by
    intro he
    exact hd.dot (UInt8.toNat_inj.mp (int_eq_rune.mp he))
  have he : ¬ (int d = rune 'e' ∨ int d = rune 'E') := by
    rw [not_or]
    exact ⟨hd.ne_rune (by decide) (by decide), hd.ne_rune (by decide) (by decide)⟩
  refine ⟨L', ?_, hL'⟩
  have h0 : (0 : Num) = BitVec.ofNat 64 0 := rfl
  simp only [lexNumber, h0, h, if_neg (fun hc : floats version ∧ int d = rune '.' => hdot hc.2),
    if_neg (fun hc : floats version ∧ (int d = rune 'e' ∨ int d = rune 'E') => he hc.2)]
  rfl

theorem lexObject_print {d : Byte} (hd : Ends d) (m : Objid) {bs : List Byte} {L : Lexer}
    (hL : Fresh L (print m.toInt ++ d::bs)) :
    ∃ L', lexObject x L = (some ⟨.tObject, .object m⟩, lexUngetc (int d) L') ∧ Fresh L' bs := by
  obtain ⟨b, rest, hb, hdig⟩ := printNat_cons m.toInt.natAbs
  have hb128 : b.toNat < 128 := by
    have := (isDigit_toNat hdig).2
    omega
  have hbr : printNat m.toInt.natAbs ++ d::bs = b::(rest ++ d::bs) := by rw [hb]; rfl
  have hds : ∀ e ∈ printNat m.toInt.natAbs, isDigit e = true := fun e he => printNat_isDigit he
  have hs : scan 0 (b::(rest ++ d::bs)) = (m.toInt.natAbs, d::bs) := by
    rw [← hbr]
    exact scan_printNat _ (stops_cons hd.digit)
  have h0 : (0 : Num) = BitVec.ofNat 64 0 := rfl
  have hlen : (printNat m.toInt.natAbs).length = rest.length+1 := by rw [hb]; rfl
  by_cases hneg : m.toInt < 0
  · rw [print, if_pos hneg, List.cons_append, hbr] at hL
    obtain ⟨hc, hL₁⟩ := hL.getc (by decide)
    obtain ⟨hc', hL₂⟩ := hL₁.getc hb128
    have hf : (printNat m.toInt.natAbs).length < (lexGetc (lexGetc L).2).2.left := by
      rw [hL₂.left, hlen, List.length_append]
      omega
    obtain ⟨tok, L', h, hL'⟩ := lexDigits_scan hx hds hd.ascii hd.digit hbr.symm hf hL₂ 0 []
    rw [hs, ← h0] at h
    have hm : -BitVec.ofNat 64 m.toInt.natAbs = m := by
      rw [← BitVec.ofInt_natCast, Int.ofNat_natAbs_of_nonpos (by omega), BitVec.ofInt_neg,
        BitVec.ofInt_toInt, BitVec.neg_neg]
    refine ⟨L', ?_, hL'⟩
    have h45 : int 45 = rune '-' := rfl
    simp only [lexObject, hc, h45, decide_true, if_true, hc', hx.digit b hb128, hdig, h, hm]
  · rw [print, if_neg hneg, hbr] at hL
    obtain ⟨hc, hL₁⟩ := hL.getc hb128
    have hf : (printNat m.toInt.natAbs).length < (lexGetc L).2.left := by
      rw [hL₁.left, hlen, List.length_append]
      omega
    obtain ⟨tok, L', h, hL'⟩ := lexDigits_scan hx hds hd.ascii hd.digit hbr.symm hf hL₁ 0 []
    rw [hs, ← h0] at h
    have hm : BitVec.ofNat 64 m.toInt.natAbs = m := by
      rw [← BitVec.ofInt_natCast, Int.natAbs_of_nonneg (by omega), BitVec.ofInt_toInt]
    have hminus : int b ≠ rune '-' := by
      intro he
      have h45 : b.toNat = 45 := int_eq_rune.mp he
      have := (isDigit_toNat hdig).1
      omega
    refine ⟨L', ?_, hL'⟩
    simp only [lexObject, hc, hminus, decide_false, Bool.false_eq_true, if_false,
      hx.digit b hb128, hdig, if_true, h, hm]

theorem lexCont_word {w : Str}
    (hw : ∀ b ∈ w, b.toNat < 128 ∧ (isAlpha b || isDigit b || b = 95) = true) {d : Byte}
    (hd : Ends d) {bs : List Byte} {fuel : ℕ} (hf : w.length < fuel) {L : Lexer}
    (hL : Fresh L (w ++ d::bs)) (tok : Str) :
    ∃ L', lexCont x fuel tok L = (tok ++ w, int d, L') ∧ Fresh L' bs := by
  induction w generalizing fuel L tok with
  | nil =>
    obtain ⟨fuel, rfl⟩ : ∃ m, fuel = m+1 := ⟨fuel-1, by simp at hf; omega⟩
    obtain ⟨hc, hL'⟩ := hL.getc hd.ascii
    have hu : int d ≠ rune '_' := fun he => hd.underscore (UInt8.toNat_inj.mp (int_eq_rune.mp he))
    have hn : ¬ (x.isXidCont (int d) = true ∨ int d = rune '_') := by
      rw [hx.cont d hd.ascii]
      simp [hd.alpha, hd.digit, hd.underscore, hu]
    refine ⟨(lexGetc L).2, ?_, hL'⟩
    simp only [lexCont, hc, if_neg hn, List.append_nil]
  | cons b w ih =>
    obtain ⟨fuel, rfl⟩ : ∃ m, fuel = m+1 := ⟨fuel-1, by simp at hf; omega⟩
    obtain ⟨hb, hbw⟩ := hw b List.mem_cons_self
    obtain ⟨hc, hL'⟩ := hL.getc hb
    obtain ⟨L', h, hfr⟩ := ih (fun e he => hw e (List.mem_cons_of_mem _ he))
      (by simp at hf; omega) hL' (tok ++ [b])
    have hy : x.isXidCont (int b) = true ∨ int b = rune '_' := .inl ((hx.cont b hb).trans hbw)
    refine ⟨L', ?_, hfr⟩
    simp only [lexCont, hc, if_pos hy, streamAddUtf_ascii hb, h, List.append_assoc,
      List.singleton_append]

theorem lexWord_keyword {b : Byte} (hb : b.toNat < 128) {w : Str}
    (hw : ∀ b ∈ w, b.toNat < 128 ∧ (isAlpha b || isDigit b || b = 95) = true) {k : Keyword}
    (hk : findKeyword (b::w) = some k) {version : DbVersion}
    (hv : DbVersion.num k.version ≤ DbVersion.num version) {d : Byte} (hd : Ends d)
    {bs : List Byte} {L : Lexer} (hL : Fresh L (w ++ d::bs)) :
    ∃ L', lexWord x version (int b) L =
      (some ⟨k.token, if k.token = .tError then .error k.error else .none⟩,
        lexUngetc (int d) L') ∧ Fresh L' bs := by
  have hf : w.length < L.left := by
    rw [hL.left, List.length_append]
    omega
  obtain ⟨L', h, hL'⟩ := lexCont_word hx hw hd hf hL (streamAddUtf [] (int b))
  rw [streamAddUtf_ascii hb, List.nil_append, List.singleton_append] at h
  refine ⟨L', ?_, hL'⟩
  simp only [lexWord, streamAddUtf_ascii hb, List.nil_append, h, hk, if_pos hv]

end

theorem escape_append (s t : Str) : escape (s ++ t) = escape s ++ escape t := by
  induction s with
  | nil => rfl
  | cons b s ih =>
    simp only [List.cons_append, escape, ih]
    split <;> rfl

theorem escape_eq_self {s : Str} (h : ∀ b ∈ s, b ≠ 34 ∧ b ≠ 92) : escape s = s := by
  induction s with
  | nil => rfl
  | cons b s ih =>
    have hb := h b List.mem_cons_self
    rw [escape, if_neg (by simp [hb]), ih fun e he => h e (List.mem_cons_of_mem _ he)]

/-- Every byte of a character of several bytes has its high bit set. -/
theorem utf8_ascii {c : Char} {b : Byte} (h : b ∈ String.utf8EncodeChar c)
    (hb : b.toNat < 128) : b.toNat = c.val.toNat := by
  have hs := scalar c
  unfold String.utf8EncodeChar at h
  simp only at h
  split at h
  · rw [List.mem_singleton] at h
    rw [h, UInt8.toNat_ofNat', Nat.mod_eq_of_lt (by omega)]
  · exfalso
    split at h
    · simp only [List.mem_cons, List.not_mem_nil, or_false] at h
      obtain rfl | rfl := h <;> rw [UInt8.toNat_ofNat'] at hb <;> omega
    · split at h
      · simp only [List.mem_cons, List.not_mem_nil, or_false] at h
        obtain rfl | rfl | rfl := h <;> rw [UInt8.toNat_ofNat'] at hb <;> omega
      · simp only [List.mem_cons, List.not_mem_nil, or_false] at h
        obtain rfl | rfl | rfl | rfl := h <;> rw [UInt8.toNat_ofNat'] at hb <;> omega

theorem utf8_mem {c d : Char} (hd : d.val.toNat < 128)
    (h : charByte d ∈ String.utf8EncodeChar c) : c = d := by
  have hb : (charByte d).toNat = d.val.toNat := by
    rw [charByte, UInt8.toNat_ofNat']
    exact Nat.mod_eq_of_lt (by change d.val.toNat < 256; omega)
  apply Char.ext
  apply UInt32.toNat_inj.mp
  rw [← utf8_ascii h (by omega), hb]

theorem escape_char {c : Char} (hq : c ≠ '"') (hb : c ≠ '\\') :
    escape (String.utf8EncodeChar c) = String.utf8EncodeChar c := by
  apply escape_eq_self
  intro b hmem
  constructor
  · intro h
    rw [h] at hmem
    exact hq (utf8_mem (by decide) hmem)
  · intro h
    rw [h] at hmem
    exact hb (utf8_mem (by decide) hmem)

theorem length_escape (s : Str) : s.length ≤ (escape s).length := by
  induction s with
  | nil => exact Nat.le_refl 0
  | cons b s ih =>
    rw [escape]
    split
    · simp only [List.length_cons]
      omega
    · simpa using ih

theorem length_le_encode (cs : List Char) : cs.length ≤ (encode cs).length := by
  induction cs with
  | nil => exact Nat.le_refl 0
  | cons c cs ih =>
    have hc := List.length_pos_of_ne_nil (String.utf8EncodeChar_ne_nil (c := c))
    have hen : encode (c::cs) = String.utf8EncodeChar c ++ encode cs := rfl
    rw [hen, List.length_append, List.length_cons]
    omega

theorem lexChars_encode {cs : List Char} (hn : '\n' ∉ cs) {bs : List Byte} {fuel : ℕ}
    (hf : cs.length < fuel) {L : Lexer} (hL : Fresh L (escape (encode cs) ++ 34::bs))
    (tok : Str) :
    ∃ L', lexChars fuel tok L = (tok ++ encode cs, L') ∧ Fresh L' bs := by
  induction cs generalizing fuel L tok with
  | nil =>
    obtain ⟨fuel, rfl⟩ : ∃ m, fuel = m+1 := ⟨fuel-1, by simp at hf; omega⟩
    obtain ⟨hc, hL'⟩ := Fresh.getc (b := 34) hL (by decide)
    refine ⟨(lexGetc L).2, ?_, hL'⟩
    rw [lexChars]
    dsimp only
    rw [hc, if_pos (show int 34 = rune '"' from rfl), encode, List.flatMap_nil, List.append_nil]
  | cons c cs ih =>
    obtain ⟨fuel, rfl⟩ : ∃ m, fuel = m+1 := ⟨fuel-1, by simp at hf; omega⟩
    have hcn : c ≠ '\n' := fun h => hn (h ▸ List.mem_cons_self)
    have hcs : '\n' ∉ cs := fun h => hn (List.mem_cons_of_mem _ h)
    have hfc : cs.length < fuel := by
      simp only [List.length_cons] at hf
      omega
    have hstop : ¬ (rune c = rune '\n' ∨ rune c = EOF) := by
      rw [not_or, rune_inj]
      exact ⟨hcn, rune_ne_eof c⟩
    have hen : encode (c::cs) = String.utf8EncodeChar c ++ encode cs := rfl
    rw [hen, escape_append, List.append_assoc] at hL
    -- the rune that is added to the token, with or without a backslash before it
    have hgo : ∀ L₁, (lexGetc L₁).1 = rune c →
        Fresh (lexGetc L₁).2 (escape (encode cs) ++ 34::bs) →
        ∃ L', lexChars fuel (streamAddUtf tok (lexGetc L₁).1) (lexGetc L₁).2 =
          (tok ++ (String.utf8EncodeChar c ++ encode cs), L') ∧ Fresh L' bs := by
      intro L₁ h₁ hL₁
      obtain ⟨L', h, hL'⟩ := ih hcs hfc hL₁ (tok ++ String.utf8EncodeChar c)
      exact ⟨L', by rw [h₁, streamAddUtf_char, h, List.append_assoc], hL'⟩
    by_cases hesc : c = '"' ∨ c = '\\'
    · have he : escape (String.utf8EncodeChar c) = 92::String.utf8EncodeChar c := by
        obtain rfl | rfl := hesc <;> rfl
      rw [he, List.cons_append] at hL
      obtain ⟨h₁, hL₁⟩ := hL.getc (by decide)
      obtain ⟨h₂, hL₂⟩ := hL₁.rune
      obtain ⟨L', h, hL'⟩ := hgo _ h₂ hL₂
      refine ⟨L', ?_, hL'⟩
      rw [hen, ← h, lexChars]
      dsimp only
      rw [h₁, if_neg (show ¬ int 92 = rune '"' by decide), if_pos (show int 92 = rune '\\' from rfl),
        if_neg (by rw [h₂]; exact hstop)]
    · rw [not_or] at hesc
      rw [escape_char hesc.1 hesc.2] at hL
      obtain ⟨h₁, hL₁⟩ := hL.rune
      obtain ⟨L', h, hL'⟩ := hgo _ h₁ hL₁
      have hq : ¬ rune c = rune '"' := fun hc => hesc.1 (rune_inj.mp hc)
      have hb : ¬ rune c = rune '\\' := fun hc => hesc.2 (rune_inj.mp hc)
      refine ⟨L', ?_, hL'⟩
      rw [hen, ← h, lexChars]
      dsimp only
      rw [h₁, if_neg hq, if_neg hb, h₁, if_neg hstop]

end LambdaMoo.Parse
