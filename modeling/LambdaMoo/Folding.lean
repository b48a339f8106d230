import LambdaMoo.Codec
import LambdaMoo.Names

/-!
# Comparing the beginnings of strings

Searching and substituting compare a string with the beginning of another,
byte by byte, exactly or up to the case of ASCII letters. On well-formed
strings that is a comparison of characters, and it fails in the middle of one.
-/

set_option autoImplicit false

namespace LambdaMoo.Strings
open LambdaMoo.Utf LambdaMoo.Execute LambdaMoo.Parse LambdaMoo.Decimal

/-- Compares at most `n` bytes of two strings with the NUL at their end. -/
def ncmp (key : Byte → ℤ) : ℕ → Str → Str → Result ℤ
  | 0, _, _ => .ok 0
  | n+1, s::ss, t::tt =>
    if key s = key t then
      if s = 0 then .ok 0 else ncmp key n ss tt
    else .ok (key s-key t)
  | _, _, _ => .error (.undefined "read past the end of a string")

def strncmp (s t : Str) (n : ℕ) : Result ℤ := ncmp int n s t

/-- The shortcut for two equal pointers, which leaves the result as it is, is left out. -/
def mystrncasecmp (s t : Str) (n : ℕ) : Result ℤ := ncmp cmapChar n s t

/-- The comparison of the string at `s` with `what`. -/
def compare (caseCounts : Bool) (what s : Str) : Result ℤ :=
  if caseCounts then strncmp s (what ++ [0]) what.length
  else mystrncasecmp s (what ++ [0]) what.length

/-- What a comparison makes of bytes is what it makes of characters. -/
structure Folding where
  key : Byte → ℤ
  byte : Byte → Byte
  char : Char → Char
  key_inj : ∀ b d, key b = key d ↔ byte b = byte d
  zero : ∀ b, byte b = byte 0 → b = 0
  cont : ∀ b, IsCont (byte b) ↔ IsCont b
  encoded : ∀ c, (String.utf8EncodeChar c).map byte = String.utf8EncodeChar (char c)

theorem int_inj (b d : Byte) : int b = int d ↔ b = d := by
  rw [int, int, Int.natCast_inj, UInt8.toNat_inj]

theorem cmap_cont (b : Byte) : IsCont (cmap b) ↔ IsCont b := by
  rw [cmap]
  by_cases h : 65 ≤ b.toNat ∧ b.toNat ≤ 90
  · rw [if_pos h, isCont_iff, isCont_iff, UInt8.toNat_add]
    simp only [UInt8.reduceToNat]
    omega
  · rw [if_neg h]

theorem upper_iff (c : Char) : (c.val ≥ 'A'.val ∧ c.val ≤ 'Z'.val) ↔
    (65 ≤ c.val.toNat ∧ c.val.toNat ≤ 90) := by
  rw [ge_iff_le, UInt32.le_iff_toNat_le, UInt32.le_iff_toNat_le]
  rfl

theorem utf8_one {c : Char} (h : c.val.toNat < 128) :
    String.utf8EncodeChar c = [UInt8.ofNat c.val.toNat] := by
  unfold String.utf8EncodeChar
  simp only
  rw [if_pos (show c.val.toNat ≤ 127 by omega)]

theorem cmap_encoded (c : Char) :
    (String.utf8EncodeChar c).map cmap = String.utf8EncodeChar c.toLower := by
  by_cases h : 65 ≤ c.val.toNat ∧ c.val.toNat ≤ 90
  · have hlow : c.toLower.val.toNat = c.val.toNat+32 := by
      delta Char.toLower
      rw [dif_pos ((upper_iff c).mpr h)]
      change (c.val + ('a'.val - 'A'.val)).toNat = _
      rw [UInt32.toNat_add]
      change (c.val.toNat+32) % 2^32 = _
      omega
    have hb : (UInt8.ofNat c.val.toNat).toNat = c.val.toNat := by
      rw [UInt8.toNat_ofNat']
      omega
    rw [utf8_one (by omega), utf8_one (by omega), hlow, List.map_cons, List.map_nil, cmap, hb,
      if_pos h, UInt8.ofNat_add]
    rfl
  · delta Char.toLower
    rw [dif_neg (mt (upper_iff c).mp h)]
    refine (List.map_congr_left fun b hb => ?_).trans (List.map_id _)
    rw [cmap, if_neg]
    · rfl
    · intro hr
      rw [utf8_ascii hb (by omega)] at hr
      exact h hr

def exactly : Folding where
  key := int
  byte := id
  char := id
  key_inj := int_inj
  zero _ h := h
  cont _ := Iff.rfl
  encoded _ := List.map_id _

def caseless : Folding where
  key := cmapChar
  byte := cmap
  char := Char.toLower
  key_inj b d := ⟨cmapChar_inj, fun h => by rw [cmapChar, cmapChar, h]⟩
  zero b h := by
    by_contra hb
    exact cmap_ne_zero hb h
  cont := cmap_cont
  encoded := cmap_encoded

def folding (caseCounts : Bool) : Folding := if caseCounts then exactly else caseless

theorem compare_eq (caseCounts : Bool) (what s : Str) :
    compare caseCounts what s = ncmp (folding caseCounts).key what.length s (what ++ [0]) := by
  cases caseCounts <;> rfl

theorem mask_nat : ∀ n < 256, (n &&& 0xc0 = 0x80 ↔ 0x80 ≤ n ∧ n ≤ 0xbf) := by decide +kernel

theorem cont_mask (b : Byte) : b &&& 0xc0 = 0x80 ↔ IsCont b := by
  rw [isCont_iff, ← mask_nat b.toNat b.toNat_lt, ← UInt8.toNat_inj, UInt8.toNat_and]
  rfl

/-- The first byte of a character is no continuation byte, and all others are. -/
theorem utf8_shape (c : Char) : ∃ l tl, String.utf8EncodeChar c = l::tl ∧ ¬IsCont l ∧
    (∀ b ∈ tl, IsCont b) ∧ (tl = [] ↔ c.val.toNat < 128) := by
  have hs := scalar c
  unfold String.utf8EncodeChar
  simp only
  have hlead : ∀ {n : ℕ}, n < 256 → (n < 0x80 ∨ 0xbf < n) → ¬IsCont (UInt8.ofNat n) := by
    intro n hn h hc
    rw [isCont_iff, UInt8.toNat_ofNat', Nat.mod_eq_of_lt hn] at hc
    omega
  have hcont : ∀ n : ℕ, IsCont (UInt8.ofNat (n%64+128)) := by
    intro n
    rw [isCont_iff, UInt8.toNat_ofNat']
    omega
  split
  · exact ⟨_, [], rfl, hlead (by omega) (by omega), by simp, fun _ => by omega, fun _ => rfl⟩
  · have hno : ∀ {b : Byte} {tl : Str}, b::tl = [] ↔ c.val.toNat < 128 :=
      iff_of_false (List.cons_ne_nil _ _) (by omega)
    split
    · refine ⟨_, _, rfl, hlead (by omega) (by omega), ?_, hno⟩
      exact List.forall_mem_singleton.mpr (hcont _)
    · split
      · refine ⟨_, _, rfl, hlead (by omega) (by omega), ?_, hno⟩
        exact List.forall_mem_cons.mpr ⟨hcont _, List.forall_mem_singleton.mpr (hcont _)⟩
      · refine ⟨_, _, rfl, hlead (by omega) (by omega), ?_, hno⟩
        exact List.forall_mem_cons.mpr ⟨hcont _,
          List.forall_mem_cons.mpr ⟨hcont _, List.forall_mem_singleton.mpr (hcont _)⟩⟩

namespace Folding
variable (f : Folding)

theorem encode_map (cs : List Char) : encode (cs.map f.char) = (encode cs).map f.byte := by
  induction cs with
  | nil => rfl
  | cons c cs ih => rw [List.map_cons, encode_cons, encode_cons, List.map_append, ih, f.encoded]

theorem length_encode_map (cs : List Char) :
    (encode (cs.map f.char)).length = (encode cs).length := by
  rw [f.encode_map, List.length_map]

theorem width_char {c d : Char} (h : f.char c = f.char d) :
    (String.utf8EncodeChar c).length = (String.utf8EncodeChar d).length := by
  have hl : ∀ e, (String.utf8EncodeChar (f.char e)).length = (String.utf8EncodeChar e).length := by
    intro e
    rw [← f.encoded, List.length_map]
  rw [← hl c, ← hl d, h]

/-- The comparison never reads past the end, and is zero on a common beginning. -/
theorem ncmp_zero {w x : Str} (hw : 0 ∉ w) (hx : 0 ∉ x) :
    ∃ r, ncmp f.key w.length (x ++ [0]) (w ++ [0]) = .ok r ∧
      (r = 0 ↔ w.map f.byte <+: x.map f.byte) := by
  induction w generalizing x with
  | nil => exact ⟨0, rfl, by simp⟩
  | cons b w ih =>
    have hb : b ≠ 0 := fun e => hw (by simp [e])
    cases x with
    | nil =>
      have hne : f.key 0 ≠ f.key b := fun e => hb (f.zero b ((f.key_inj _ _).mp e).symm)
      refine ⟨f.key 0-f.key b, if_neg hne, iff_of_false (fun h => hne (by omega)) ?_⟩
      simp
    | cons c x =>
      have hc : c ≠ 0 := fun e => hx (by simp [e])
      rw [List.map_cons, List.map_cons, List.cons_prefix_cons]
      by_cases he : f.key c = f.key b
      · obtain ⟨r, hr, hz⟩ := ih (fun h => hw (List.mem_cons_of_mem b h))
          (x := x) (fun h => hx (List.mem_cons_of_mem c h))
        refine ⟨r, ?_, ?_⟩
        · rw [List.length_cons, List.cons_append, List.cons_append, ncmp, if_pos he, if_neg hc, hr]
        · rw [hz, and_iff_right ((f.key_inj _ _).mp he).symm]
      · refine ⟨f.key c-f.key b, ?_, iff_of_false (fun h => he (by omega)) fun h => ?_⟩
        · rw [List.length_cons, List.cons_append, List.cons_append, ncmp, if_neg he]
        · exact he ((f.key_inj _ _).mpr h.1.symm)

end Folding

theorem encode_nil_iff {cs : List Char} : encode cs = [] ↔ cs = [] := by
  constructor
  · intro h
    have := length_le_encode cs
    rw [h] at this
    exact List.length_eq_zero_iff.mp (Nat.le_zero.mp this)
  · rintro rfl
    rfl

theorem encode_starts {as bs : List Char} : encode as <+: encode bs ↔ as <+: bs := by
  constructor
  · intro h
    induction as generalizing bs with
    | nil => exact List.nil_prefix
    | cons a as ih =>
      obtain ⟨r, hr⟩ := h
      cases bs with
      | nil =>
        have := encode_nil_iff.mp (List.append_eq_nil_iff.mp hr).1
        cases this
      | cons b bs =>
        rw [encode_cons, encode_cons, List.append_assoc] at hr
        obtain ⟨rfl, ht⟩ := utf8_cancel hr
        exact List.cons_prefix_cons.mpr ⟨rfl, ih ⟨r, ht⟩⟩
  · rintro ⟨r, rfl⟩
    rw [encode_append]
    exact List.prefix_append _ _

/-- A word stands at a place of a text, up to what `f` makes the same. -/
def Occurs (f : Char → Char) (ws cs : List Char) (p : ℕ) : Prop :=
  p ≤ cs.length ∧ ws.map f <+: (cs.drop p).map f

instance (f : Char → Char) (ws cs : List Char) (p : ℕ) : Decidable (Occurs f ws cs p) :=
  inferInstanceAs (Decidable (_ ∧ _))

theorem occurs_zero {f : Char → Char} {ws cs : List Char} :
    Occurs f ws cs 0 ↔ ws.map f <+: cs.map f := by
  simp [Occurs]

theorem occurs_succ {f : Char → Char} {ws cs : List Char} {c : Char} {p : ℕ} :
    Occurs f ws (c::cs) (p+1) ↔ Occurs f ws cs p := by
  simp [Occurs]

section Compare
variable {ws : List Char} (hw : '\x00' ∉ ws) (caseCounts : Bool)
include hw

/-- At a character, the comparison is that of the characters. -/
theorem compare_chars {cs : List Char} (hcs : '\x00' ∉ cs) :
    ∃ r, compare caseCounts (encode ws) (encode cs ++ [0]) = .ok r ∧
      (r = 0 ↔ ws.map (folding caseCounts).char <+: cs.map (folding caseCounts).char) := by
  obtain ⟨r, hr, hz⟩ := (folding caseCounts).ncmp_zero (encode_ne_zero hw) (encode_ne_zero hcs)
  refine ⟨r, by rw [compare_eq]; exact hr, ?_⟩
  rw [hz, ← Folding.encode_map, ← Folding.encode_map, encode_starts]

/-- Inside of a character, the comparison fails. -/
theorem compare_inside (hne : ws ≠ []) {b : Byte} {x : Str} (hb : IsCont b) (hx : 0 ∉ b::x) :
    ∃ r, compare caseCounts (encode ws) (b::x ++ [0]) = .ok r ∧ r ≠ 0 := by
  obtain ⟨r, hr, hz⟩ := (folding caseCounts).ncmp_zero (encode_ne_zero hw) hx
  refine ⟨r, by rw [compare_eq]; exact hr, fun h0 => ?_⟩
  obtain ⟨c, ws, rfl⟩ := List.exists_cons_of_ne_nil hne
  obtain ⟨l, tl, hc, hl, -⟩ := utf8_shape c
  have h := hz.mp h0
  rw [encode_cons, hc, List.cons_append, List.map_cons, List.map_cons, List.cons_prefix_cons] at h
  rw [← (folding caseCounts).cont, h.1, (folding caseCounts).cont] at hl
  exact hl hb

end Compare

end LambdaMoo.Strings
