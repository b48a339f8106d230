import LambdaMoo.Database

/-!
# Binary strings

A binary string writes a byte as itself or, after a tilde, in two hexadecimal
digits. The encoder, the decoder and the two builtins on lists agree on the
bytes that a string denotes. The decoder forces a digit to lower case by setting
a bit, which also makes digits of ten control characters.
-/

set_option autoImplicit false

namespace LambdaMoo.Binary

def hexDigit (n : ℕ) : Byte := UInt8.ofNat (if n < 10 then 48+n else 87+n)

/-- The format `~%02x`. -/
def escape (c : Byte) : Str := [126, hexDigit (c.toNat/16), hexDigit (c.toNat%16)]

def rawBytesToBinary (buffer : List Byte) : Str :=
  buffer.flatMap fun c => if 32 ≤ c.toNat ∧ c.toNat < 126 then [c] else escape c

/-- The value of a digit, after `| 0x20`. -/
def digitValue (p : Byte) : Option Byte :=
  let c := p ||| 0x20
  if 48 ≤ c.toNat ∧ c.toNat ≤ 57 then some (c-48)
  else if 97 ≤ c.toNat ∧ c.toNat ≤ 102 then some (c-97+10)
  else none

/-- The NUL at the end of a string is no digit either. -/
def binaryToRawBytes : Str → Option (List Byte)
  | [] => some []
  | c::p =>
    if c ≠ 126 then (binaryToRawBytes p).map (c::·)
    else match p with
      | c₁::c₂::p => do
        let cc ← digitValue c₁
        let d ← digitValue c₂
        (binaryToRawBytes p).map (((cc <<< 4)+d)::·)
      | _ => none

/-- `isgraph` in the C locale, a space or a tab. -/
def inText (c : Byte) : Bool := (33 ≤ c.toNat && c.toNat ≤ 126) || c == 32 || c == 9

/-- The first loop of `decode_binary`. -/
def countItems : Bool → List Byte → ℕ
  | _, [] => 0
  | inString, c::bytes =>
    if inText c then (if inString then 0 else 1)+countItems true bytes
    else countItems false bytes+1

def textItem (inString : Bool) (s : Str) : List Var := if inString then [.str s] else []

def byteItem (c : Byte) : Var := .int (BitVec.ofNat 64 c.toNat)

/-- The second loop: the items it stores, with the text that the stream holds. -/
def items : Bool → Str → List Byte → List Var
  | inString, s, [] => textItem inString s
  | inString, s, c::bytes =>
    if inText c then items true (s++[c]) bytes
    else textItem inString s ++ byteItem c::items false [] bytes

/-- A list of so many elements, filled one after another. -/
def fill (count : ℕ) (vs : List Var) : Result Var :=
  if vs.length = count then .ok (.list vs) else .error (.undefined "element of a list")

/-- The inner error is the one that is raised. -/
def bfDecodeBinary (str : Str) (fully : Bool) : Result (Except Err Var) :=
  match binaryToRawBytes str with
  | none => return .error .invarg
  | some bytes =>
    if fully then return .ok (.list (bytes.map byteItem))
    else do return .ok (← fill (countItems false bytes) (items false [] bytes))

mutual
def encodeBinary : Var → Option (List Byte)
  | .int num => if num.toInt < 0 ∨ 256 ≤ num.toInt then none else some [UInt8.ofNat num.toNat]
  | .str str => some str
  | .list list => encodeAll list
  | _ => none
def encodeAll : List Var → Option (List Byte)
  | [] => some []
  | v::vs => do return (← encodeBinary v) ++ (← encodeAll vs)
end

def bfEncodeBinary (arglist : List Var) : Except Err Str :=
  match encodeBinary (.list arglist) with
  | some bytes => .ok (rawBytesToBinary bytes)
  | none => .error .invarg

def IsHex (c : Byte) : Prop :=
  48 ≤ c.toNat ∧ c.toNat ≤ 57 ∨ 97 ≤ c.toNat ∧ c.toNat ≤ 102 ∨ 65 ≤ c.toNat ∧ c.toNat ≤ 70

/-- The control characters that `| 0x20` makes digits of. -/
def IsControl (c : Byte) : Prop := 16 ≤ c.toNat ∧ c.toNat ≤ 25

instance (c : Byte) : Decidable (IsHex c) := inferInstanceAs (Decidable (_ ∨ _ ∨ _))

instance (c : Byte) : Decidable (IsControl c) := inferInstanceAs (Decidable (_ ∧ _))

/-- Every tilde of a scan from the left is followed by two bytes of a kind. -/
def Escaped (P : Byte → Prop) : Str → Prop
  | [] => True
  | c::p =>
    if c ≠ 126 then Escaped P p
    else match p with
      | c₁::c₂::p => P c₁ ∧ P c₂ ∧ Escaped P p
      | _ => False

theorem escaped_cons {P : Byte → Prop} (c : Byte) (p : Str) : Escaped P (c::p) =
    if c ≠ 126 then Escaped P p
    else match p with
      | c₁::c₂::p => P c₁ ∧ P c₂ ∧ Escaped P p
      | _ => False := by
  rw [Escaped.eq_def]
  rfl

theorem escaped_nil (P : Byte → Prop) : Escaped P [] = True := rfl

theorem escaped_plain {P : Byte → Prop} {c : Byte} (hc : c ≠ 126) (p : Str) :
    Escaped P (c::p) ↔ Escaped P p := by
  rw [escaped_cons, if_pos hc]

theorem escaped_tilde {P : Byte → Prop} (c₁ c₂ : Byte) (p : Str) :
    Escaped P (126::c₁::c₂::p) ↔ P c₁ ∧ P c₂ ∧ Escaped P p := by
  rw [escaped_cons, if_neg (by decide)]

theorem digitValue_iff (c : Byte) : (digitValue c).isSome = true ↔ IsHex c ∨ IsControl c := by
  have h : ∀ n : Fin 256, (digitValue (UInt8.ofNat n)).isSome = true ↔
      IsHex (UInt8.ofNat n) ∨ IsControl (UInt8.ofNat n) := by decide +kernel
  have hc := h ⟨c.toNat, c.toNat_lt⟩
  rwa [UInt8.ofNat_toNat] at hc

theorem digitValue_hexDigit {n : ℕ} (hn : n < 16) :
    digitValue (hexDigit n) = some (UInt8.ofNat n) := by
  have h : ∀ n : Fin 16, digitValue (hexDigit n) = some (UInt8.ofNat n) := by decide
  exact h ⟨n, hn⟩

theorem nibbles (c : Byte) :
    (UInt8.ofNat (c.toNat/16) <<< 4)+UInt8.ofNat (c.toNat%16) = c := by
  have h : ∀ n : Fin 256, (UInt8.ofNat ((UInt8.ofNat n).toNat/16) <<< 4)+
      UInt8.ofNat ((UInt8.ofNat n).toNat%16) = UInt8.ofNat n := by decide +kernel
  have hc := h ⟨c.toNat, c.toNat_lt⟩
  rwa [UInt8.ofNat_toNat] at hc

theorem binaryToRawBytes_escape (c : Byte) (p : Str) :
    binaryToRawBytes (escape c ++ p) = (binaryToRawBytes p).map (c::·) := by
  have hlt := c.toNat_lt
  rw [escape, List.cons_append, List.cons_append, List.cons_append, List.nil_append,
    binaryToRawBytes, if_neg (by simp)]
  simp only [digitValue_hexDigit (show c.toNat/16 < 16 by omega),
    digitValue_hexDigit (show c.toNat%16 < 16 by omega), Option.bind_eq_bind, Option.bind_some,
    nibbles]

theorem binaryToRawBytes_plain {c : Byte} (hc : c ≠ 126) (p : Str) :
    binaryToRawBytes (c::p) = (binaryToRawBytes p).map (c::·) := by
  rw [binaryToRawBytes.eq_def]
  exact if_pos hc

theorem raw_roundtrip (b : List Byte) : binaryToRawBytes (rawBytesToBinary b) = some b := by
  induction b with
  | nil => rfl
  | cons c b ih =>
    have hcons : rawBytesToBinary (c::b) =
        (if 32 ≤ c.toNat ∧ c.toNat < 126 then [c] else escape c) ++ rawBytesToBinary b := rfl
    rw [hcons]
    by_cases hc : 32 ≤ c.toNat ∧ c.toNat < 126
    · have hne : c ≠ 126 := by
        intro h
        simp [h] at hc
      rw [if_pos hc, List.singleton_append, binaryToRawBytes_plain hne, ih]
      rfl
    · rw [if_neg hc, binaryToRawBytes_escape, ih]
      rfl

theorem binaryToRawBytes_isSome (s : Str) :
    (binaryToRawBytes s).isSome = true ↔ Escaped (fun c => IsHex c ∨ IsControl c) s := by
  fun_induction binaryToRawBytes s with
  | case1 => simp [escaped_nil]
  | case2 c p hc ih =>
    rw [escaped_plain hc, ← ih, Option.isSome_map]
  | case3 c hc c₁ c₂ p ih =>
    obtain rfl := not_not.mp hc
    rw [escaped_tilde, ← digitValue_iff, ← digitValue_iff, ← ih]
    cases digitValue c₁ <;> cases digitValue c₂ <;> simp
  | case4 c p hc hp =>
    obtain rfl := not_not.mp hc
    match p, hp with
    | [], _ => simp [escaped_cons]
    | [c₁], _ => simp [escaped_cons]
    | c₁::c₂::p, hp => exact (hp c₁ c₂ p rfl).elim

theorem encodeBinary_int (num : Num) : encodeBinary (.int num) =
    if num.toInt < 0 ∨ 256 ≤ num.toInt then none else some [UInt8.ofNat num.toNat] := rfl

theorem encodeBinary_str (s : Str) : encodeBinary (.str s) = some s := rfl

theorem encodeBinary_list (vs : List Var) : encodeBinary (.list vs) = encodeAll vs := rfl

theorem encodeAll_nil : encodeAll [] = some [] := rfl

theorem encodeBinary_byteItem (c : Byte) : encodeBinary (byteItem c) = some [c] := by
  have hlt := c.toNat_lt
  have hnat : (BitVec.ofNat 64 c.toNat).toNat = c.toNat := by
    rw [BitVec.toNat_ofNat, Nat.mod_eq_of_lt (by omega)]
  have hint : (BitVec.ofNat 64 c.toNat).toInt = c.toNat := by
    rw [BitVec.toInt_eq_toNat_of_lt (by omega), hnat]
  rw [byteItem, encodeBinary_int, if_neg (by omega), hnat, UInt8.ofNat_toNat]

theorem encodeAll_cons {v : Var} {vs : List Var} {a b : List Byte} (hv : encodeBinary v = some a)
    (hvs : encodeAll vs = some b) : encodeAll (v::vs) = some (a ++ b) := by
  show (do return (← encodeBinary v) ++ (← encodeAll vs)) = some (a ++ b)
  rw [hv, hvs]
  rfl

theorem encodeAll_bytes (bytes : List Byte) : encodeAll (bytes.map byteItem) = some bytes := by
  induction bytes with
  | nil => rfl
  | cons c bytes ih => exact encodeAll_cons (encodeBinary_byteItem c) ih

theorem items_cons (inString : Bool) (s : Str) (c : Byte) (bytes : List Byte) :
    items inString s (c::bytes) = if inText c then items true (s++[c]) bytes
      else textItem inString s ++ byteItem c::items false [] bytes := rfl

theorem countItems_cons (inString : Bool) (c : Byte) (bytes : List Byte) :
    countItems inString (c::bytes) =
      if inText c then (if inString then 0 else 1)+countItems true bytes
      else countItems false bytes+1 := rfl

theorem countItems_eq (inString : Bool) (s : Str) (bytes : List Byte) :
    (items inString s bytes).length = countItems inString bytes+if inString then 1 else 0 := by
  induction bytes generalizing inString s with
  | nil =>
    cases inString with
    | false => rfl
    | true => rfl
  | cons c bytes ih =>
    rw [items_cons, countItems_cons]
    by_cases hc : inText c
    · rw [if_pos hc, if_pos hc, ih]
      cases inString <;> simp
      omega
    · rw [if_neg hc, if_neg hc, List.length_append, List.length_cons, ih]
      cases inString <;> simp [textItem]
      omega

theorem encodeAll_text (inString : Bool) (s : Str) {vs : List Var} {b : List Byte}
    (h : encodeAll vs = some b) :
    encodeAll (textItem inString s ++ vs) = some ((if inString then s else []) ++ b) := by
  cases inString with
  | false => exact h
  | true => exact encodeAll_cons (encodeBinary_str s) h

theorem encodeAll_items (inString : Bool) (s : Str) (bytes : List Byte)
    (hs : inString = false → s = []) :
    encodeAll (items inString s bytes) = some (s ++ bytes) := by
  have hif : ∀ b : Bool, (b = false → s = []) → (if b then s else []) = s := by
    intro b hb
    cases b with
    | false => simp [hb rfl]
    | true => simp
  induction bytes generalizing inString s with
  | nil =>
    change encodeAll (textItem inString s) = _
    rw [← List.append_nil (textItem inString s), encodeAll_text inString s (b := []) rfl,
      hif inString hs]
  | cons c bytes ih =>
    rw [items_cons]
    by_cases hc : inText c
    · rw [if_pos hc, ih true (s++[c]) (by simp) (by simp), List.append_assoc]
      rfl
    · rw [if_neg hc, encodeAll_text inString s
        (encodeAll_cons (encodeBinary_byteItem c) (ih false [] (by simp) (by simp))),
        hif inString hs]
      rfl

theorem encodeBinary_decoded {s : Str} {b : List Byte} (h : binaryToRawBytes s = some b)
    (fully : Bool) :
    ∃ r, bfDecodeBinary s fully = .ok (.ok r) ∧ bfEncodeBinary [r] = .ok (rawBytesToBinary b) := by
  have hencode : ∀ vs, encodeAll vs = some b →
      bfEncodeBinary [.list vs] = .ok (rawBytesToBinary b) := by
    intro vs hvs
    have hlist : encodeAll [.list vs] = some (b ++ []) :=
      encodeAll_cons ((encodeBinary_list vs).trans hvs) encodeAll_nil
    rw [bfEncodeBinary, encodeBinary_list, hlist, List.append_nil]
  cases fully with
  | true =>
    refine ⟨.list (b.map byteItem), ?_, hencode _ (encodeAll_bytes b)⟩
    rw [bfDecodeBinary, h]
    rfl
  | false =>
    refine ⟨.list (items false [] b), ?_, hencode _ (encodeAll_items false [] b (by simp))⟩
    have hfill : fill (countItems false b) (items false [] b) = .ok (.list (items false [] b)) :=
      if_pos (countItems_eq false [] b)
    rw [bfDecodeBinary, h]
    simp only [Bool.false_eq_true, if_false, hfill]
    rfl

/-- What the codecs promise of a string. -/
structure Agree (s : Str) : Prop where
  roundtrip : ∀ b, binaryToRawBytes (rawBytesToBinary b) = some b
  accepts : (∃ b, binaryToRawBytes s = some b) ↔ Escaped IsHex s
  denotes : ∀ b, binaryToRawBytes s = some b → ∀ fully, ∃ r t,
    bfDecodeBinary s fully = .ok (.ok r) ∧ bfEncodeBinary [r] = .ok t ∧
      binaryToRawBytes t = some b

theorem Escaped.and {P Q : Byte → Prop} (s : Str) :
    Escaped (fun c => P c ∧ Q c) s ↔ Escaped P s ∧ Escaped Q s := by
  fun_induction Escaped P s with
  | case1 => simp [escaped_nil]
  | case2 c p hc ih => rw [escaped_plain hc, escaped_plain hc, ih]
  | case3 c hc c₁ c₂ p ih =>
    obtain rfl := not_not.mp hc
    rw [escaped_tilde, escaped_tilde, ih]
    tauto
  | case4 c p hc hp =>
    obtain rfl := not_not.mp hc
    match p, hp with
    | [], _ => simp [escaped_cons]
    | [c₁], _ => simp [escaped_cons]
    | c₁::c₂::p, hp => exact (hp c₁ c₂ p rfl).elim

theorem escaped_hex (s : Str) :
    Escaped IsHex s ↔
      Escaped (fun c => IsHex c ∨ IsControl c) s ∧ Escaped (fun c => ¬ IsControl c) s := by
  have h : IsHex = fun c => (IsHex c ∨ IsControl c) ∧ ¬ IsControl c := by
    funext c
    simp only [IsHex, IsControl, eq_iff_iff]
    omega
  rw [← Escaped.and, ← h]

/-- The decoder takes ten control characters for digits, and nothing else is wrong with it. -/
theorem agree_iff (s : CStr) :
    Agree s.str ↔ (Escaped (fun c => IsHex c ∨ IsControl c) s.str →
      Escaped (fun c => ¬ IsControl c) s.str) := by
  have haccept : (∃ b, binaryToRawBytes s.str = some b) ↔
      Escaped (fun c => IsHex c ∨ IsControl c) s.str := by
    rw [← Option.isSome_iff_exists, binaryToRawBytes_isSome]
  constructor
  · intro h hdigits
    exact ((escaped_hex s.str).mp (h.accepts.mp (haccept.mpr hdigits))).2
  · intro h
    refine ⟨raw_roundtrip, ?_, ?_⟩
    · rw [haccept, escaped_hex]
      exact ⟨fun hd => ⟨hd, h hd⟩, fun hd => hd.1⟩
    · intro b hb fully
      obtain ⟨r, hr, ht⟩ := encodeBinary_decoded hb fully
      exact ⟨r, rawBytesToBinary b, hr, ht, raw_roundtrip b⟩

/-- A tilde, control-T and a digit are decoded to the byte 65. -/
theorem not_agree_control : ¬ ∀ s : CStr, Agree s.str := by
  intro h
  have hs := (h ⟨[126, 20, 49], by decide⟩).accepts.mp ⟨[65], by decide⟩
  exact absurd hs.1 (by decide)

end LambdaMoo.Binary
