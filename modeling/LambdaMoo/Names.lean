import LambdaMoo.Properties

/-!
# Names up to case

Two names are compared by their hashes and then letter by letter up to case;
both agree when the names are the same in lower case.
-/

set_option autoImplicit false

namespace LambdaMoo

theorem cmap_ne_zero {c : Byte} (hc : c ≠ 0) : cmap c ≠ 0 := by
  rw [cmap]
  by_cases h : 65 ≤ c.toNat ∧ c.toNat ≤ 90
  · rw [if_pos h]
    intro h0
    have := congrArg UInt8.toNat h0
    simp only [UInt8.toNat_add, UInt8.reduceToNat] at this
    omega
  · rw [if_neg h]
    exact hc

theorem cmapChar_inj {c d : Byte} (h : cmapChar c = cmapChar d) : cmap c = cmap d := by
  apply UInt8.toBitVec_inj.mp
  exact BitVec.eq_of_toInt_eq h

theorem cmapChar_ne_zero {c : Byte} (hc : c ≠ 0) : cmapChar c ≠ 0 := by
  intro h
  exact cmap_ne_zero hc (UInt8.toBitVec_inj.mp (BitVec.eq_of_toInt_eq (y := 0) h))

/-- A string in lower case. -/
def fold (s : Str) : Str := s.map cmap

theorem mystrcasecmp_eq_zero {s t : Str} (hs : 0 ∉ s) (ht : 0 ∉ t) :
    mystrcasecmp s t = 0 ↔ fold s = fold t := by
  induction s generalizing t with
  | nil =>
    cases t with
    | nil => simp [mystrcasecmp]
    | cons d ts =>
      have hd : d ≠ 0 := fun h => ht (by simp [h])
      simp [mystrcasecmp, fold, cmapChar_ne_zero hd]
  | cons c ss ih =>
    cases t with
    | nil =>
      have hc : c ≠ 0 := fun h => hs (by simp [h])
      simp [mystrcasecmp, fold, cmapChar_ne_zero hc]
    | cons d ts =>
      have ih := ih (fun h => hs (by simp [h])) (fun h => ht (List.mem_cons_of_mem d h))
      rw [mystrcasecmp]
      by_cases h : cmap c = cmap d
      · rw [if_pos h, ih]
        simp [fold, h]
      · rw [if_neg h]
        constructor
        · intro h0
          exact absurd (cmapChar_inj (by omega)) h
        · intro hf
          exact absurd (List.cons.inj hf).1 h

def CStr.fold (s : CStr) : Str := LambdaMoo.fold s.str

theorem CStr.casecmp_iff (s t : CStr) : mystrcasecmp s.str t.str = 0 ↔ s.fold = t.fold :=
  mystrcasecmp_eq_zero s.noNul t.noNul

namespace Database

theorem strHash_fold (s : Str) :
    strHash s = (fold s).foldl
      (fun (ans : BitVec 32) c => (ans <<< 3)+(ans >>> 28)+BitVec.ofNat 32 c.toNat) 0 := by
  rw [strHash, fold, List.foldl_map]

theorem Propdef.named_iff (p : Propdef) (name : CStr) :
    p.named name = true ↔ p.name.str.fold = name.fold := by
  rw [named, Bool.and_eq_true, beq_iff_eq, beq_iff_eq, CStr.casecmp_iff]
  constructor
  · intro h
    exact h.2
  · intro h
    refine ⟨?_, h⟩
    rw [strHash_fold, strHash_fold]
    exact congrArg (List.foldl _ 0) h

section Congr
variable {name name' : CStr} (h : name'.fold = name.fold)
include h

theorem Propdef.named_congr (p : Propdef) : p.named name' = p.named name := by
  rw [Bool.eq_iff_iff, p.named_iff, p.named_iff, h]

theorem casecmp_congr {t : Str} (ht : 0 ∉ t) :
    (mystrcasecmp name'.str t == 0) = (mystrcasecmp name.str t == 0) := by
  rw [Bool.eq_iff_iff, beq_iff_eq, beq_iff_eq, mystrcasecmp_eq_zero name'.noNul ht,
    mystrcasecmp_eq_zero name.noNul ht]
  exact Eq.congr_left h

theorem strHash_congr : strHash name'.str = strHash name.str := by
  rw [strHash_fold, strHash_fold]
  exact congrArg (List.foldl _ 0) h

theorem builtIn_congr : builtIn name' = builtIn name := by
  have hn : ∀ b : BiProp, 0 ∉ b.pname := by
    intro b
    cases b <;> decide
  rw [builtIn, builtIn]
  congr 1
  funext b
  rw [strHash_congr h, casecmp_congr h (hn b)]

theorem findSlot_congr (n : ℕ) (chain : List (ℤ × Object)) :
    Db.findSlot name' n chain = Db.findSlot name n chain := by
  induction chain generalizing n with
  | nil => rfl
  | cons a rest ih =>
    simp only [Db.findSlot, ih, Propdef.named_congr h]

theorem findProperty_congr (db : Db) (oid : ℤ) : db.findProperty oid name' = db.findProperty oid name := by
  simp only [Db.findProperty, builtIn_congr h, findSlot_congr h]

end Congr

end Database
end LambdaMoo
