import Mathlib.Data.List.Basic
import Mathlib.Data.BitVec

/-!
# Decimal numbers as bytes

The text `printf` gives an integer, and the reading of the longest run of
digits at the front of a text. Reading is the inverse of printing wherever
the printed number is followed by something that is no digit.
-/

set_option autoImplicit false

namespace LambdaMoo.Decimal

def isDigit (b : UInt8) : Bool := 48 ≤ b.toNat && b.toNat ≤ 57

def charByte (c : Char) : UInt8 := UInt8.ofNat c.toNat

def printNat (n : ℕ) : List UInt8 := (Nat.toDigits 10 n).map charByte

def print (z : ℤ) : List UInt8 :=
  if z < 0 then 45::printNat z.natAbs else printNat z.natAbs

def scan : ℕ → List UInt8 → ℕ × List UInt8
  | acc, [] => (acc, [])
  | acc, b::bs => if isDigit b then scan (10*acc+(b.toNat-48)) bs else (acc, b::bs)

/-- The next byte, if there is one, is no digit. -/
def Stops (bs : List UInt8) : Prop := ∀ b ∈ bs.head?, isDigit b = false

theorem stops_cons {b : UInt8} {bs : List UInt8} (h : isDigit b = false) : Stops (b::bs) := by
  intro c hc
  simp at hc
  exact hc ▸ h

theorem char_isDigit {c : Char} (h : c.isDigit) : 48 ≤ c.toNat ∧ c.toNat ≤ 57 := by
  simp only [Char.isDigit, Bool.and_eq_true, decide_eq_true_eq] at h
  exact ⟨UInt32.le_iff_toNat_le.mp h.1, UInt32.le_iff_toNat_le.mp h.2⟩

theorem charByte_toNat {c : Char} (h : c.isDigit) : (charByte c).toNat = c.toNat := by
  have hc := (char_isDigit h).2
  simp only [charByte, UInt8.toNat_ofNat']
  omega

theorem charByte_isDigit {c : Char} (h : c.isDigit) : isDigit (charByte c) = true := by
  simp [isDigit, charByte_toNat h, char_isDigit h]

theorem printNat_isDigit {n : ℕ} {b : UInt8} (h : b ∈ printNat n) : isDigit b = true := by
  obtain ⟨c, hc, rfl⟩ := List.mem_map.mp h
  exact charByte_isDigit (Nat.isDigit_of_mem_toDigits (by decide) (by decide) hc)

theorem printNat_ne_nil (n : ℕ) : printNat n ≠ [] := by
  simp [printNat]

theorem printNat_length {n k : ℕ} (hk : 0 < k) (h : n < 10^k) : (printNat n).length ≤ k := by
  simpa [printNat] using (Nat.length_toDigits_le_iff (by decide) hk).mpr h

theorem scan_stops {acc : ℕ} {bs : List UInt8} (h : Stops bs) : scan acc bs = (acc, bs) := by
  cases bs with
  | nil => rfl
  | cons b bs => simp [scan, h b (by simp)]

theorem scan_chars (cs : List Char) (hd : ∀ c ∈ cs, c.isDigit) (acc : ℕ) {rest : List UInt8}
    (hr : Stops rest) :
    scan acc (cs.map charByte ++ rest) = (Nat.ofDigitChars 10 cs acc, rest) := by
  induction cs generalizing acc with
  | nil => simpa using scan_stops hr
  | cons c cs ih =>
    have hc := hd c (by simp)
    rw [List.map_cons, List.cons_append, scan, if_pos (charByte_isDigit hc),
      ih (fun d h => hd d (by simp [h])), charByte_toNat hc, Nat.ofDigitChars_cons]
    rfl

theorem scan_printNat (n : ℕ) {rest : List UInt8} (hr : Stops rest) :
    scan 0 (printNat n ++ rest) = (n, rest) := by
  rw [printNat, scan_chars _ (fun c hc =>
    Nat.isDigit_of_mem_toDigits (by decide) (by decide) hc) 0 hr, Nat.ofDigitChars_ten_toDigits]

theorem printNat_cons (n : ℕ) : ∃ b bs, printNat n = b::bs ∧ isDigit b = true := by
  obtain ⟨b, bs, h⟩ := List.exists_cons_of_ne_nil (printNat_ne_nil n)
  exact ⟨b, bs, h, printNat_isDigit (h ▸ List.mem_cons_self)⟩

theorem isDigit_toNat {b : UInt8} (h : isDigit b = true) : 48 ≤ b.toNat ∧ b.toNat ≤ 57 := by
  simpa [isDigit] using h

/-- A byte outside the digits and the minus sign is not printed. -/
theorem print_not_mem (z : ℤ) {b : UInt8} (hb : isDigit b = false) (hm : b ≠ 45) :
    b ∉ print z := by
  have hn : b ∉ printNat z.natAbs := by
    intro h
    simp [printNat_isDigit h] at hb
  rw [print]
  split
  · simp [hm, hn]
  · exact hn

theorem print_length {z : ℤ} {k : ℕ} (hk : 0 < k) (h : z.natAbs < 10^k) :
    (print z).length ≤ k+1 := by
  have hn := printNat_length hk h
  rw [print]
  split
  · simpa using hn
  · omega

end LambdaMoo.Decimal
