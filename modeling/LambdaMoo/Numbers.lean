import Mathlib.Algebra.Order.Field.Power
import Mathlib.Data.Rat.Floor
import LambdaMoo.Values

/-!
# Arithmetic on integers

Exponentiation, division and the shifts on the 64-bit integers of MOO. Sums,
products and left shifts that leave the range wrap around. A quotient out of
range traps, and C does not say what a shift by the whole width does.
-/

set_option autoImplicit false

namespace LambdaMoo.Numbers

/-- `while (b != 0)` of `do_power`. -/
def powerLoop : ℕ → Num → Num → Num → Result Num
  | 0, _, _, _ => .error .outOfFuel
  | fuel+1, a, b, r =>
    if b = 0 then .ok r
    else powerLoop fuel (a*a) (b.sshiftRight 1) (if b &&& 1 ≠ 0 then r*a else r)

/-- The integer branch of `do_power`; 64 rounds are enough for the loop. -/
def powerInt (a b : Num) : Result Var :=
  if b.toInt < 0 then
    if a = -1 then .ok (.int (if b &&& 1 ≠ 0 then 1 else -1))
    else if a = 0 then .ok (.err .div)
    else if a = 1 then .ok (.int 1)
    else .ok (.int 0)
  else do return .int (← powerLoop 64 a b 1)

section
variable [FloatOps]

def powerFloat (x y : Fnum) : Var :=
  match FloatOps.pow x y with
  | some d => if FloatOps.isReal d then .float d else .err .float
  | none => .err .float

def doPower : Var → Var → Result Var
  | .int a, .int b => powerInt a b
  | .float x, .int b => .ok (powerFloat x (FloatOps.ofNum b))
  | .float x, .float y => .ok (powerFloat x y)
  | _, _ => .ok (.err .type)

def floatQuotient (op : Fnum → Fnum → Fnum) (x y : Fnum) : Var :=
  if y = FloatOps.zero then .err .div
  else if FloatOps.isReal (op x y) then .float (op x y) else .err .float

/-- The quotient of the least integer and `-1` is out of range, for `/` and for `%` alike. -/
def quotient (op : ℤ → ℤ → ℤ) (a b : Num) : Result Var :=
  if a = BitVec.intMin 64 ∧ b = -1 then .error (.undefined "quotient out of range")
  else .ok (.int (BitVec.ofInt 64 (op a.toInt b.toInt)))

/-- `DIVISION_OP`, with the operators on integers and on floats. -/
def divisionOp (iop : ℤ → ℤ → ℤ) (fop : Fnum → Fnum → Fnum) : Var → Var → Result Var
  | .int a, .int b => if b = 0 then .ok (.err .div) else quotient iop a b
  | .float x, .float y => .ok (floatQuotient fop x y)
  | a, b => if a.type ≠ b.type then .ok (.err .type) else .ok (.err .div)

def doDivide : Var → Var → Result Var := divisionOp Int.tdiv FloatOps.div
def doModulus : Var → Var → Result Var := divisionOp Int.tmod FloatOps.fmod

end

/-- A shift as C executes it. -/
def shift (op : Num → ℕ → Num) (x : Num) (n : ℤ) : Result Num :=
  if 0 ≤ n ∧ n < 64 then .ok (op x n.toNat) else .error (.undefined "shift count")

def highones (c : ℤ) : Result Num := shift (· <<< ·) (~~~0) (64-c)

def lowones (c : ℤ) : Result Num := do return ~~~(← highones c)

def logshiftr (a : Num) (b : ℤ) : Result Num := do
  return (← shift (· >>> ·) a b) &&& (← lowones b)

def shiftr (a : Num) (b : ℤ) : Result Num := do
  let low ← logshiftr a b
  let high ← if a.toInt < 0 then highones b else .ok 0
  return low ^^^ high

inductive ShiftOp where
  | shl | shr | lshr
  deriving DecidableEq, Repr

def shiftInt : ShiftOp → Num → ℤ → Result Num
  | .shl, a, n => shift (· <<< ·) a n
  | .shr, a, n => shiftr a n
  | .lshr, a, n => logshiftr a n

/-- The value that `EOP_SHL`, `EOP_SHR` and `EOP_LSHR` push. -/
def runShift (op : ShiftOp) : Var → Var → Result Var
  | .int a, .int b =>
    if b.toInt < 0 ∨ 64 ≤ b.toInt then .ok (.err .invarg)
    else do return .int (← shiftInt op a b.toInt)
  | _, _ => .ok (.err .type)

section Power

/-- A rational number without its fraction. -/
def truncate (q : ℚ) : ℤ := if 0 ≤ q then ⌊q⌋ else ⌈q⌉

/-- Integer exponentiation is exact. -/
structure PowerExact [FloatOps] (a b : Num) : Prop where
  whole : 0 ≤ b.toInt →
    doPower (.int a) (.int b) = .ok (.int (BitVec.ofInt 64 (a.toInt^b.toInt.toNat)))
  fraction : b.toInt < 0 → a ≠ 0 →
    doPower (.int a) (.int b) = .ok (.int (BitVec.ofInt 64 (truncate ((a.toInt:ℚ)^b.toInt))))
  error : doPower (.int a) (.int b) = .ok (.err .div) ↔ b.toInt < 0 ∧ a = 0

theorem and_one (b : Num) : b &&& 1 ≠ 0 ↔ b.toNat%2 = 1 := by
  have h : (b &&& 1).toNat = b.toNat%2 := by
    rw [BitVec.toNat_and, show (1:Num).toNat = 1 from rfl, Nat.and_one_is_mod]
  constructor
  · intro hb
    have : b.toNat%2 ≠ 0 := fun h0 => hb (BitVec.eq_of_toNat_eq (by rw [h, h0]; rfl))
    omega
  · intro hb h0
    rw [h0] at h
    simp at h
    omega

/-- What is left to multiply: each round halves the exponent and squares the base. -/
theorem powerLoop_eq (fuel : ℕ) (a b r : Num) (hb : b.toNat < 2^63) (hf : b.toNat < 2^fuel)
    (z w : ℤ) (ha : a = BitVec.ofInt 64 z) (hr : r = BitVec.ofInt 64 w) :
    powerLoop (fuel+1) a b r = .ok (BitVec.ofInt 64 (w*z^b.toNat)) := by
  induction fuel generalizing a b r z w with
  | zero =>
    have h0 : b = 0 := BitVec.eq_of_toNat_eq (by simp at hf ⊢; omega)
    subst h0
    simp [powerLoop, hr]
  | succ fuel ih =>
    rw [powerLoop]
    split
    · next h0 =>
      subst h0
      simp [hr]
    · have hmsb : b.msb = false := BitVec.msb_eq_false_iff_two_mul_lt.mpr (by omega)
      have hhalf : (b.sshiftRight 1).toNat = b.toNat/2 := by
        rw [BitVec.sshiftRight_eq_of_msb_false hmsb, BitVec.toNat_ushiftRight,
          Nat.shiftRight_eq_div_pow]
      have hsq : a*a = BitVec.ofInt 64 (z*z) := by rw [BitVec.ofInt_mul, ha]
      have hround : ∀ r' w', r' = BitVec.ofInt 64 w' → w'*(z*z)^(b.toNat/2) = w*z^b.toNat →
          powerLoop (fuel+1) (a*a) (b.sshiftRight 1) r' =
            .ok (BitVec.ofInt 64 (w*z^b.toNat)) := by
        intro r' w' hr' hw'
        rw [ih (a*a) _ r' (by omega) (by rw [Nat.pow_succ] at hf; omega) (z*z) w' hsq hr', hhalf,
          hw']
      have hpow : z^b.toNat = z^(b.toNat%2)*(z*z)^(b.toNat/2) := by
        rw [← pow_two, ← pow_mul, ← pow_add, Nat.mod_add_div]
      split
      · next hodd =>
        apply hround _ (w*z)
        · rw [BitVec.ofInt_mul, ha, hr]
        · rw [hpow, (and_one b).mp hodd, pow_one, mul_assoc]
      · next heven =>
        apply hround _ w hr
        have h0 : b.toNat%2 = 0 := by
          have := mt (and_one b).mpr heven
          omega
        rw [hpow, h0, pow_zero, one_mul]

theorem toInt_toNat {b : Num} (h : 0 ≤ b.toInt) : b.toInt.toNat = b.toNat ∧ b.toNat < 2^63 := by
  have hc := b.toInt_eq_toNat_cond
  have hl := b.isLt
  split at hc <;> omega

theorem power_whole {a b : Num} (h : 0 ≤ b.toInt) :
    powerInt a b = .ok (.int (BitVec.ofInt 64 (a.toInt^b.toInt.toNat))) := by
  obtain ⟨hn, hb⟩ := toInt_toNat h
  have hloop := powerLoop_eq 63 a b 1 hb hb a.toInt 1 (BitVec.ofInt_toInt).symm rfl
  rw [powerInt, if_neg (by omega), hloop, hn, one_mul]
  rfl

/-- A fraction below one in size has nothing left of it. -/
theorem truncate_small {q : ℚ} (h : |q| < 1) : truncate q = 0 := by
  obtain ⟨h1, h2⟩ := abs_lt.mp h
  rw [truncate]
  split
  · next h0 => exact Int.floor_eq_zero_iff.mpr ⟨h0, h2⟩
  · next h0 => exact Int.ceil_eq_zero_iff.mpr ⟨h1, (not_le.mp h0).le⟩

theorem truncate_one : truncate 1 = 1 := by
  rw [truncate, if_pos (by norm_num)]
  exact Int.floor_one

theorem truncate_neg_one : truncate (-1) = -1 := by
  rw [truncate, if_neg (by norm_num)]
  exact_mod_cast Int.ceil_intCast (R := ℚ) (-1)

/-- The reciprocal of an integer beyond one in size is small. -/
theorem zpow_small {z n : ℤ} (hz : 2 ≤ |z|) (hn : n < 0) : |(z:ℚ)^n| < 1 := by
  rw [abs_zpow]
  have h1 : (1:ℚ) < |(z:ℚ)| := by
    rw [← Int.cast_abs]
    exact_mod_cast (by omega : 1 < |z|)
  exact zpow_lt_one_of_neg₀ h1 hn

theorem power_fraction {a b : Num} (h : b.toInt < 0) (h0 : a ≠ 0) (h1 : a ≠ -1) :
    powerInt a b = .ok (.int (BitVec.ofInt 64 (truncate ((a.toInt:ℚ)^b.toInt)))) := by
  rw [powerInt, if_pos h, if_neg h1, if_neg h0]
  split
  · next h => 
    subst h
    have : (1:Num).toInt = 1 := rfl
    rw [this, Int.cast_one, one_zpow, truncate_one]
    rfl
  · next hne =>
    have hz : 2 ≤ |a.toInt| := by
      have e0 : a.toInt ≠ 0 := fun e => h0 (BitVec.eq_of_toInt_eq e)
      have e1 : a.toInt ≠ 1 := fun e => hne (BitVec.eq_of_toInt_eq e)
      have e2 : a.toInt ≠ -1 := fun e => h1 (BitVec.eq_of_toInt_eq e)
      rw [le_abs']
      omega
    rw [truncate_small (zpow_small hz h)]
    rfl

/-- The sign of a power of `-1` is taken the wrong way. -/
theorem power_minus_one {b : Num} (h : b.toInt < 0) :
    powerInt (-1) b ≠ .ok (.int (BitVec.ofInt 64 (truncate (((-1:Num).toInt:ℚ)^b.toInt)))) := by
  have hm : ((-1:Num).toInt : ℚ) = -1 := by
    rw [show (-1:Num).toInt = -1 from rfl]
    norm_num
  have hparity : b.toInt%2 = b.toNat%2 := by
    have := b.toInt_eq_toNat_cond
    split at this <;> omega
  rw [powerInt, if_pos h, if_pos rfl, hm]
  by_cases hodd : b &&& 1 ≠ 0
  · have ho : Odd b.toInt := Int.odd_iff.mpr (by have := (and_one b).mp hodd; omega)
    rw [if_pos hodd, ho.neg_one_zpow, truncate_neg_one]
    decide
  · have he : Even b.toInt := Int.even_iff.mpr (by have := mt (and_one b).mpr hodd; omega)
    rw [if_neg hodd, he.neg_one_zpow, truncate_one]
    decide

theorem power_error (a b : Num) : powerInt a b = .ok (.err .div) ↔ b.toInt < 0 ∧ a = 0 := by
  by_cases h : b.toInt < 0
  · rw [powerInt, if_pos h]
    by_cases h1 : a = -1
    · simp [h1]
    · rw [if_neg h1]
      by_cases h0 : a = 0
      · simp [h0, h]
      · have hne : ∀ v : Num, (.ok (.int v) : Result Var) ≠ .ok (.err .div) := by simp
        rw [if_neg h0]
        split
        · exact iff_of_false (hne _) fun h => h0 h.2
        · exact iff_of_false (hne _) fun h => h0 h.2
  · rw [power_whole (by omega)]
    simp [h]

/-- Exponentiation is exact but for the powers of `-1` with a negative exponent. -/
theorem power_exact_iff [FloatOps] (a b : Num) : PowerExact a b ↔ 0 ≤ b.toInt ∨ a ≠ -1 := by
  constructor
  · intro h
    by_contra hc
    simp only [not_or, not_le, not_not] at hc
    obtain ⟨hb, rfl⟩ := hc
    exact power_minus_one hb (h.fraction hb (by decide))
  · intro h
    refine ⟨power_whole, ?_, power_error a b⟩
    intro hb h0
    exact power_fraction hb h0 (h.resolve_left (by omega))

end Power

section Division

/-- Quotient and remainder are those of division toward zero, and nothing traps. -/
structure DivisionRight [FloatOps] (a b : Num) : Prop where
  divideError : doDivide (.int a) (.int b) = .ok (.err .div) ↔ b = 0
  modulusError : doModulus (.int a) (.int b) = .ok (.err .div) ↔ b = 0
  parts : b ≠ 0 → ∃ q r, doDivide (.int a) (.int b) = .ok (.int q) ∧
    doModulus (.int a) (.int b) = .ok (.int r) ∧ a = q*b+r ∧ |r.toInt| < |b.toInt| ∧
    (r = 0 ∨ r.toInt.sign = a.toInt.sign)

theorem toInt_ne_zero {b : Num} (h : b ≠ 0) : b.toInt ≠ 0 :=
  fun e => h (BitVec.eq_of_toInt_eq e)

theorem tmod_sign (a b : ℤ) : a.tmod b = 0 ∨ (a.tmod b).sign = a.sign := by
  rcases lt_trichotomy (a.tmod b) 0 with h|h|h
  · have ha : a < 0 := by
      by_contra hc
      have := Int.tmod_nonneg b (not_lt.mp hc)
      omega
    rw [Int.sign_eq_neg_one_of_neg h, Int.sign_eq_neg_one_of_neg ha]
    exact .inr rfl
  · exact .inl h
  · have ha : 0 < a := by
      by_contra hc
      have := Int.tmod_nonneg b (a := -a) (by omega)
      rw [Int.neg_tmod] at this
      omega
    rw [Int.sign_eq_one_of_pos h, Int.sign_eq_one_of_pos ha]
    exact .inr rfl

theorem abs_tmod_lt (a : ℤ) {b : ℤ} (h : b ≠ 0) : |a.tmod b| < |b| := by
  rw [Int.abs_eq_natAbs, Int.abs_eq_natAbs, Int.natAbs_tmod]
  exact_mod_cast Nat.mod_lt _ (by omega)

theorem toInt_tmod {a b : Num} (h : b ≠ 0) :
    (BitVec.ofInt 64 (a.toInt.tmod b.toInt)).toInt = a.toInt.tmod b.toInt := by
  have hlt : |a.toInt.tmod b.toInt| < |b.toInt| := abs_tmod_lt _ (toInt_ne_zero h)
  have h1 := b.le_toInt
  have h2 := b.toInt_lt
  have hb : |b.toInt| ≤ 2^63 := abs_le.mpr ⟨by simpa using h1, by simp at h2; omega⟩
  obtain ⟨h3, h4⟩ := abs_lt.mp (lt_of_lt_of_le hlt hb)
  rw [BitVec.toInt_ofInt]
  exact Int.bmod_eq_of_le (by omega) (by omega)

/-- Only the least integer divided by `-1` goes wrong. -/
theorem division_right_iff [FloatOps] (a b : Num) :
    DivisionRight a b ↔ ¬(a = BitVec.intMin 64 ∧ b = -1) := by
  constructor
  · rintro h ⟨rfl, rfl⟩
    obtain ⟨q, r, hq, -⟩ := h.parts (by decide)
    rw [doDivide, divisionOp, if_neg (by decide), quotient, if_pos ⟨rfl, rfl⟩] at hq
    cases hq
  · intro h
    have hquot : ∀ iop fop, b ≠ 0 → divisionOp iop fop (.int a) (.int b) =
        .ok (.int (BitVec.ofInt 64 (iop a.toInt b.toInt))) := by
      intro iop fop hb
      rw [divisionOp, if_neg hb, quotient, if_neg h]
    have herror : ∀ iop fop, divisionOp iop fop (.int a) (.int b) = .ok (.err .div) ↔ b = 0 := by
      intro iop fop
      by_cases hb : b = 0
      · rw [divisionOp, if_pos hb]
        exact iff_of_true rfl hb
      · rw [hquot iop fop hb]
        exact iff_of_false (by simp) hb
    refine ⟨herror _ _, herror _ _, ?_⟩
    intro hb
    refine ⟨_, _, hquot _ _ hb, hquot _ _ hb, ?_, ?_, ?_⟩
    · have hz := Int.tdiv_mul_add_tmod a.toInt b.toInt
      have := congrArg (BitVec.ofInt 64) hz
      rw [BitVec.ofInt_add, BitVec.ofInt_mul, BitVec.ofInt_toInt, BitVec.ofInt_toInt] at this
      exact this.symm
    · rw [toInt_tmod hb]
      exact abs_tmod_lt _ (toInt_ne_zero hb)
    · rw [toInt_tmod hb]
      rcases tmod_sign a.toInt b.toInt with h0|hs
      · exact .inl (by rw [h0]; rfl)
      · exact .inr hs

end Division

section Shifts

/-- The value of a shift, when its count is in range. -/
def shifted : ShiftOp → Num → ℕ → Num
  | .shl, a, n => BitVec.ofInt 64 (a.toInt*2^n)
  | .shr, a, n => BitVec.ofInt 64 (a.toInt/2^n)
  | .lshr, a, n => BitVec.ofNat 64 (a.toNat/2^n)

structure ShiftRight (op : ShiftOp) (a b : Num) : Prop where
  error : runShift op (.int a) (.int b) = .ok (.err .invarg) ↔ ¬(0 ≤ b.toInt ∧ b.toInt ≤ 63)
  value : 0 ≤ b.toInt → b.toInt ≤ 63 →
    runShift op (.int a) (.int b) = .ok (.int (shifted op a b.toInt.toNat))

theorem highones_eq {n : ℕ} (h0 : 0 < n) (h : n ≤ 63) :
    highones n = .ok (BitVec.allOnes 64 <<< (64-n)) := by
  have hn : (64-(n:ℤ)).toNat = 64-n := by omega
  rw [highones, shift, if_pos (by omega), hn]
  rfl

theorem highones_getElem {n i : ℕ} (h : n ≤ 63) (hi : i < 64) :
    (BitVec.allOnes 64 <<< (64-n))[i] = decide (64 ≤ i+n) := by
  rw [BitVec.getElem_shiftLeft, BitVec.getElem_allOnes, Bool.and_true, ← decide_not]
  congr 1
  rw [eq_iff_iff]
  omega

/-- The mask takes away only bits that the shift has already cleared. -/
theorem logshiftr_eq (a : Num) {n : ℕ} (h0 : 0 < n) (h : n ≤ 63) :
    logshiftr a n = .ok (a >>> n) := by
  have hmask : a >>> n &&& ~~~(BitVec.allOnes 64 <<< (64-n)) = a >>> n := by
    ext i hi
    rw [BitVec.getElem_and, BitVec.getElem_not, highones_getElem h hi, BitVec.getElem_ushiftRight]
    by_cases hc : 64 ≤ i+n
    · rw [BitVec.getLsbD_of_ge _ _ (by omega)]
      rfl
    · simp [hc]
  rw [logshiftr, lowones, highones_eq h0 h, shift, if_pos (by omega)]
  simp only [bind, Except.bind, pure, Except.pure, Int.toNat_natCast, hmask]

/-- The sign is put in by turning the cleared bits over. -/
theorem shiftr_eq (a : Num) {n : ℕ} (h0 : 0 < n) (h : n ≤ 63) :
    shiftr a n = .ok (a.sshiftRight n) := by
  have hbits : ∀ m : Num, (∀ i (hi : i < 64), m[i] = (a.msb && decide (64 ≤ i+n))) →
      a >>> n ^^^ m = a.sshiftRight n := by
    intro m hm
    ext i hi
    rw [BitVec.getElem_xor, hm i hi, BitVec.getElem_ushiftRight, BitVec.getElem_sshiftRight]
    by_cases hc : 64 ≤ i+n
    · rw [BitVec.getLsbD_of_ge _ _ (by omega), dif_neg (by omega)]
      simp [hc]
    · rw [dif_pos (by omega), BitVec.getLsbD_eq_getElem (by omega)]
      simp [hc]
  rw [shiftr, logshiftr_eq a h0 h, highones_eq h0 h]
  by_cases hs : a.toInt < 0
  · have hmsb : a.msb = true := by rw [BitVec.msb_eq_toInt, decide_eq_true hs]
    simp only [hs, if_true, bind, Except.bind, pure, Except.pure]
    rw [hbits _ fun i hi => by rw [highones_getElem h hi, hmsb, Bool.true_and]]
  · have hmsb : a.msb = false := by rw [BitVec.msb_eq_toInt, decide_eq_false hs]
    simp only [hs, if_false, bind, Except.bind, pure, Except.pure]
    rw [hbits 0 fun i hi => by rw [hmsb]; simp]

theorem shl_eq (a : Num) {n : ℕ} (h : n ≤ 63) :
    shiftInt .shl a n = .ok (shifted .shl a n) := by
  have hpow : BitVec.twoPow 64 n = BitVec.ofInt 64 (2^n) := by
    rw [show (2:ℤ)^n = ((2^n:ℕ):ℤ) by push_cast; rfl, BitVec.ofInt_natCast]
    exact BitVec.eq_of_toNat_eq (by rw [BitVec.toNat_twoPow, BitVec.toNat_ofNat])
  rw [shiftInt, shift, if_pos (by omega), shifted, BitVec.ofInt_mul, BitVec.ofInt_toInt,
    Int.toNat_natCast, BitVec.shiftLeft_eq_mul_twoPow, hpow]

theorem shr_eq (a : Num) {n : ℕ} (h0 : 0 < n) (h : n ≤ 63) :
    shiftInt .shr a n = .ok (shifted .shr a n) := by
  have hv : a.sshiftRight n = BitVec.ofInt 64 (a.toInt/2^n) := by
    rw [← BitVec.ofInt_toInt (x := a.sshiftRight n), BitVec.toInt_sshiftRight,
      Int.shiftRight_eq_div_pow]
    norm_num
  rw [shiftInt, shiftr_eq a h0 h, hv, shifted]

theorem lshr_eq (a : Num) {n : ℕ} (h0 : 0 < n) (h : n ≤ 63) :
    shiftInt .lshr a n = .ok (shifted .lshr a n) := by
  have hv : a >>> n = BitVec.ofNat 64 (a.toNat/2^n) := by
    apply BitVec.eq_of_toNat_eq
    rw [BitVec.toNat_ushiftRight, Nat.shiftRight_eq_div_pow, BitVec.toNat_ofNat,
      Nat.mod_eq_of_lt (Nat.lt_of_le_of_lt (Nat.div_le_self _ _) a.isLt)]
  rw [shiftInt, logshiftr_eq a h0 h, hv, shifted]

theorem shift_zero (a : Num) : shiftInt .shr a 0 = .error (.undefined "shift count") ∧
    shiftInt .lshr a 0 = .error (.undefined "shift count") := by
  have hl : logshiftr a 0 = .error (.undefined "shift count") := rfl
  exact ⟨by rw [shiftInt, shiftr, hl]; rfl, hl⟩

theorem runShift_in {op : ShiftOp} {a b : Num} (h0 : 0 ≤ b.toInt) (h : b.toInt ≤ 63) :
    runShift op (.int a) (.int b) = do return .int (← shiftInt op a b.toInt.toNat) := by
  rw [runShift, if_neg (by omega), Int.toNat_of_nonneg h0]

/-- A shift that gives the value it should where its count is in range is right everywhere. -/
theorem shift_right_of_value {op : ShiftOp} {a b : Num}
    (h : 0 ≤ b.toInt → b.toInt ≤ 63 →
      shiftInt op a b.toInt.toNat = .ok (shifted op a b.toInt.toNat)) : ShiftRight op a b := by
  have hvalue : 0 ≤ b.toInt → b.toInt ≤ 63 →
      runShift op (.int a) (.int b) = .ok (.int (shifted op a b.toInt.toNat)) := by
    intro h0 h63
    rw [runShift_in h0 h63, h h0 h63]
    rfl
  refine ⟨?_, hvalue⟩
  by_cases hin : 0 ≤ b.toInt ∧ b.toInt ≤ 63
  · rw [hvalue hin.1 hin.2]
    simp [hin]
  · rw [runShift, if_pos (by omega)]
    exact iff_of_true rfl hin

end Shifts

/-- Division goes wrong for the least integer and `-1` only; the left shift never; and the two right
shifts just when the count is zero, where the mask is made by a shift by the whole width. -/
theorem division_and_shifts [FloatOps] (a b : Num) :
    (DivisionRight a b ↔ ¬(a = BitVec.intMin 64 ∧ b = -1)) ∧ ShiftRight .shl a b ∧
    (ShiftRight .shr a b ↔ b ≠ 0) ∧ (ShiftRight .lshr a b ↔ b ≠ 0) := by
  have hwrong : ∀ op, shiftInt op a 0 = .error (.undefined "shift count") → b = 0 →
      ¬ShiftRight op a b := by
    rintro op hop rfl h
    have hv := h.value (by decide) (by decide)
    rw [runShift_in (by decide) (by decide)] at hv
    rw [show ((0:Num).toInt.toNat : ℤ) = 0 from rfl, hop] at hv
    cases hv
  refine ⟨division_right_iff a b, ?_, ?_, ?_⟩
  · exact shift_right_of_value fun h0 h63 => shl_eq a (by omega)
  · constructor
    · exact fun h hb => hwrong .shr (shift_zero a).1 hb h
    · intro hb
      have := toInt_ne_zero hb
      exact shift_right_of_value fun h0 h63 => shr_eq a (by omega) (by omega)
  · constructor
    · exact fun h hb => hwrong .lshr (shift_zero a).2 hb h
    · intro hb
      have := toInt_ne_zero hb
      exact shift_right_of_value fun h0 h63 => lshr_eq a (by omega) (by omega)

/-- The inverse of `-1` comes out as `1`. -/
theorem power_inverted : ¬@PowerExact noFloats (-1) (-1) := by
  intro h
  exact power_minus_one (by decide) (@PowerExact.fraction noFloats _ _ h (by decide) (by decide))

/-- The least integer divided by `-1` traps, and a right shift by no places is undefined. -/
theorem quotient_traps :
    ¬@DivisionRight noFloats (BitVec.intMin 64) (-1) ∧ ¬ShiftRight .shr 8 0 := by
  constructor
  · intro h
    obtain ⟨q, r, hq, -⟩ := @DivisionRight.parts noFloats _ _ h (by decide)
    cases hq
  · intro h
    have hv := h.value (by decide) (by decide)
    cases hv

end LambdaMoo.Numbers
