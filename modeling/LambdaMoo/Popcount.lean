import Mathlib.Data.Nat.Bitwise
import Mathlib.Tactic.Ring
import Mathlib.Data.Nat.Count

/-!
# Counting bits by adding fields in parallel

A number is read as a list of fields of one width, lowest first. A step adds
each field to its neighbour inside a field twice as wide; after enough steps
from single bits, one field is left, which holds the number of bits set.
-/

set_option autoImplicit false

namespace Popcount

def pack (m : ℕ) : List ℕ → ℕ
  | [] => 0
  | d::ds => d+2^m*pack m ds

def evens : List ℕ → List ℕ
  | a::_::ds => a::evens ds
  | ds => ds

def odds : List ℕ → List ℕ
  | _::b::ds => b::odds ds
  | _ => []

def pairs : List ℕ → List ℕ
  | a::b::ds => (a+b)::pairs ds
  | ds => ds

/-- The lower half of each of `k` fields of width `2*m`. -/
def lows (m : ℕ) : ℕ → ℕ
  | 0 => 0
  | k+1 => (2^m-1)+2^(2*m)*lows m k

theorem land_fields {a c n : ℕ} (b d : ℕ) (ha : a < 2^n) (hc : c < 2^n) :
    (a+2^n*b) &&& (c+2^n*d) = (a &&& c)+2^n*(b &&& d) := by
  have hac : a &&& c < 2^n := lt_of_le_of_lt Nat.and_le_left ha
  apply Nat.eq_of_testBit_eq
  intro i
  rw [Nat.testBit_and, Nat.add_comm a, Nat.add_comm c, Nat.add_comm (a &&& c),
    Nat.testBit_two_pow_mul_add b ha, Nat.testBit_two_pow_mul_add d hc,
    Nat.testBit_two_pow_mul_add _ hac]
  by_cases h : i < n <;> simp [h, Nat.testBit_and]

theorem pack_cons_cons (m a b : ℕ) (ds : List ℕ) :
    pack m (a::b::ds) = (a+2^m*b)+2^(2*m)*pack m ds := by
  rw [pack, pack, two_mul, pow_add]
  ring

theorem pair_lt {m a b : ℕ} (ha : a < 2^m) (hb : b < 2^m) : a+2^m*b < 2^(2*m) := by
  have h : 2^m*(b+1) ≤ 2^m*2^m := Nat.mul_le_mul_left _ hb
  rw [two_mul, pow_add]
  rw [Nat.mul_add, Nat.mul_one] at h
  omega

section Halves
variable {m : ℕ}

theorem land_lows : ∀ (k : ℕ) (ds : List ℕ), ds.length = 2*k → (∀ d ∈ ds, d < 2^m) →
    pack m ds &&& lows m k = pack (2*m) (evens ds)
  | 0, ds, hl, _ => by
    rw [List.length_eq_zero_iff.mp hl]
    simp [pack, lows, evens]
  | k+1, [], hl, _ => by simp at hl
  | k+1, [_], hl, _ => by
    simp only [List.length_singleton] at hl
    omega
  | k+1, a::b::ds, hl, hd => by
    have ha := hd a (by simp)
    have hb := hd b (by simp)
    have ih := land_lows k ds (by simp only [List.length_cons] at hl; omega)
      (fun d h => hd d (by simp [h]))
    have hm : 2^m-1 < 2^(2*m) := by
      have := pair_lt ha hb
      have := Nat.pow_le_pow_right (show 0 < 2 by decide) (show m ≤ 2*m by omega)
      omega
    have hlow : (a+2^m*b) &&& (2^m-1) = a := by
      rw [Nat.and_two_pow_sub_one_eq_mod, Nat.add_mul_mod_self_left, Nat.mod_eq_of_lt ha]
    rw [pack_cons_cons, lows, land_fields _ _ (pair_lt ha hb) hm, ih, hlow, evens, pack]

theorem land_highs : ∀ (k : ℕ) (ds : List ℕ), ds.length = 2*k → (∀ d ∈ ds, d < 2^m) →
    pack m ds &&& 2^m*lows m k = 2^m*pack (2*m) (odds ds)
  | 0, ds, hl, _ => by
    rw [List.length_eq_zero_iff.mp hl]
    simp [pack, lows, odds]
  | k+1, [], hl, _ => by simp at hl
  | k+1, [_], hl, _ => by
    simp only [List.length_singleton] at hl
    omega
  | k+1, a::b::ds, hl, hd => by
    have ha := hd a (by simp)
    have hb := hd b (by simp)
    have ih := land_highs k ds (by simp only [List.length_cons] at hl; omega)
      (fun d h => hd d (by simp [h]))
    have hm : 2^m*(2^m-1) < 2^(2*m) := by
      rw [two_mul, pow_add]
      exact Nat.mul_lt_mul_of_pos_left (by omega) (by omega)
    have hhigh : (a+2^m*b) &&& 2^m*(2^m-1) = 2^m*b := by
      have := land_fields b (2^m-1) ha (Nat.two_pow_pos m)
      rw [Nat.zero_add, Nat.and_zero, Nat.zero_add, Nat.and_two_pow_sub_one_eq_mod,
        Nat.mod_eq_of_lt hb] at this
      exact this
    have hmask : 2^m*lows m (k+1) = 2^m*(2^m-1)+2^(2*m)*(2^m*lows m k) := by
      rw [lows]
      ring
    rw [pack_cons_cons, hmask, land_fields _ _ (pair_lt ha hb) hm, ih, hhigh, odds, pack]
    ring

theorem pack_add (m : ℕ) : ∀ (k : ℕ) (ds : List ℕ), ds.length = 2*k →
    pack m (odds ds)+pack m (evens ds) = pack m (pairs ds)
  | 0, ds, hl => by
    rw [List.length_eq_zero_iff.mp hl]
    rfl
  | k+1, [], hl => by simp at hl
  | k+1, [_], hl => by
    simp only [List.length_singleton] at hl
    omega
  | k+1, a::b::ds, hl => by
    have ih := pack_add m k ds (by simp only [List.length_cons] at hl; omega)
    rw [odds, evens, pairs, pack, pack, pack, ← ih]
    ring

/-- One step of the count. -/
theorem step {k : ℕ} {ds : List ℕ} (hl : ds.length = 2*k) (hd : ∀ d ∈ ds, d < 2^m) :
    ((pack m ds &&& 2^m*lows m k) >>> m)+(pack m ds &&& lows m k) = pack (2*m) (pairs ds) := by
  rw [land_lows k ds hl hd, land_highs k ds hl hd, Nat.shiftRight_eq_div_pow,
    Nat.mul_div_cancel_left _ (Nat.two_pow_pos m), pack_add (2*m) k ds hl]

end Halves

theorem pairs_length : ∀ (k : ℕ) (ds : List ℕ), ds.length = 2*k → (pairs ds).length = k
  | 0, ds, hl => by
    rw [List.length_eq_zero_iff.mp hl]
    rfl
  | k+1, [], hl => by simp at hl
  | k+1, [_], hl => by
    simp only [List.length_singleton] at hl
    omega
  | k+1, a::b::ds, hl => by
    rw [pairs, List.length_cons, pairs_length k ds (by simp only [List.length_cons] at hl; omega)]

theorem pairs_sum (ds : List ℕ) : (pairs ds).sum = ds.sum := by
  fun_induction pairs ds with
  | case1 a b ds ih => simp [ih, Nat.add_assoc]
  | case2 => rfl

theorem pairs_le {c : ℕ} (ds : List ℕ) (hd : ∀ d ∈ ds, d ≤ c) : ∀ d ∈ pairs ds, d ≤ 2*c := by
  fun_induction pairs ds with
  | case1 a b ds ih =>
    intro d hm
    have ha := hd a (by simp)
    have hb := hd b (by simp)
    rcases List.mem_cons.mp hm with rfl|hm
    · omega
    · exact ih (fun d h => hd d (by simp [h])) d hm
  | case2 ds =>
    intro d hm
    have := hd d hm
    omega

theorem pack_lt {m : ℕ} {ds : List ℕ} (hd : ∀ d ∈ ds, d < 2^m) : pack m ds < 2^(m*ds.length) := by
  induction ds with
  | nil => simp [pack]
  | cons d ds ih =>
    have h := ih fun e he => hd e (by simp [he])
    have hm : 2^m*(pack m ds+1) ≤ 2^m*2^(m*ds.length) := Nat.mul_le_mul_left _ h
    have := hd d (by simp)
    rw [List.length_cons, Nat.mul_succ, Nat.add_comm, pow_add, pack]
    rw [Nat.mul_add, Nat.mul_one] at hm
    omega

/-- The lowest `n` bits of a number, as fields of one bit. -/
def bits (x n : ℕ) : List ℕ := (List.range n).map fun i => (x.testBit i).toNat

theorem bits_le (x n : ℕ) : ∀ d ∈ bits x n, d ≤ 1 := by
  intro d hd
  obtain ⟨i, -, rfl⟩ := List.mem_map.mp hd
  exact Bool.toNat_le _

theorem bits_length (x n : ℕ) : (bits x n).length = n := by simp [bits]

theorem bits_succ (x n : ℕ) : bits x (n+1) = x%2::bits (x/2) n := by
  rw [bits, bits, List.range_succ_eq_map, List.map_cons, List.map_map]
  congr 1
  · rw [Nat.testBit_zero]
    rcases Nat.mod_two_eq_zero_or_one x with h|h <;> simp [h]
  · apply List.map_congr_left
    intro i _
    simp [Nat.testBit_succ]

theorem pack_bits (x n : ℕ) : pack 1 (bits x n) = x%2^n := by
  induction n generalizing x with
  | zero => simp [bits, pack, Nat.mod_one]
  | succ n ih =>
    rw [bits_succ, pack, ih, pow_one, pow_succ, Nat.mul_comm (2^n), Nat.mod_mul]

theorem sum_bits (x n : ℕ) : (bits x n).sum = Nat.count (fun i => x.testBit i = true) n := by
  induction n with
  | zero => rfl
  | succ n ih =>
    have hs : bits x (n+1) = bits x n++[(x.testBit n).toNat] := by
      simp [bits, List.range_succ]
    rw [hs, List.sum_append, ih, Nat.count_succ]
    cases x.testBit n <;> simp

end Popcount
