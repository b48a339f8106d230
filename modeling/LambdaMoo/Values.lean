import Mathlib.Data.List.Basic
import Mathlib.Data.BitVec

/-!
# MOO values

The in-memory `Var` of the server. Integers and object numbers are the same
64-bit type, and strings are byte strings without their terminating NUL. The
stack markers for exception handlers are values too: the interpreter keeps
them on the same stack as the operands.
-/

set_option autoImplicit false

namespace LambdaMoo

abbrev Byte := UInt8
abbrev Num := BitVec 64
abbrev Objid := Num
abbrev Str := List Byte

def nothing : Objid := -1

/-- What a C function of the server can do instead of returning: stop the
process with a message, or leave the behaviour C defines. A model that
recurses on fuel can also run out of it. -/
inductive Fault where
  | panic (msg : String)
  | undefined (what : String)
  | outOfFuel
  deriving DecidableEq, Repr

abbrev Result := Except Fault

theorem bind_ok {α β : Type} {x : Result α} {f : α → Result β} {r : β} :
    (x >>= f) = .ok r ↔ ∃ a, x = .ok a ∧ f a = .ok r := by
  cases x with
  | error e => simp [bind, Except.bind]
  | ok a => simp [bind, Except.bind]

theorem pure_ok {α : Type} {a b : α} : (pure a : Result α) = .ok b ↔ a = b := by
  simp [pure, Except.pure]

/-- An outcome that was computed. -/
theorem map_ok {α β : Type} {x : Result α} {f : α → β} {b : β} (h : x.map f = .ok b) :
    ∃ a, x = .ok a ∧ f a = b := by
  cases x with
  | error e => cases h
  | ok a => exact ⟨a, rfl, Except.ok.inj h⟩

inductive Err where
  | none | type | div | perm | propnf | verbnf | varnf | invind
  | recmove | maxrec | range | args | nacc | invarg | quota | float
  deriving DecidableEq, Repr

/-- A double by its bits, as C's `==` tells it apart: `0.0` and `-0.0` are one value, and
every result that is not a real number is an error before it is stored. -/
structure Fnum where
  code : ℕ
  deriving DecidableEq, Repr

/-- A reference to a waif in the heap. -/
structure WaifRef where
  ptr : ℕ
  deriving DecidableEq, Repr

inductive Var where
  | int (num : Num)
  | obj (obj : Objid)
  | str (str : Str)
  | err (err : Err)
  | list (list : List Var)
  | clear
  | none
  | catch (num : Num)
  | finally (num : Num)
  | float (fnum : Fnum)
  | waif (waif : WaifRef)
  deriving Repr

def zero : Var := .int 0

mutual
def Var.beq : Var → Var → Bool
  | .int a, .int b => a == b
  | .obj a, .obj b => a == b
  | .str a, .str b => a == b
  | .err a, .err b => a == b
  | .list a, .list b => Var.beqList a b
  | .clear, .clear => true
  | .none, .none => true
  | .catch a, .catch b => a == b
  | .finally a, .finally b => a == b
  | .float a, .float b => a == b
  | .waif a, .waif b => a == b
  | _, _ => false
def Var.beqList : List Var → List Var → Bool
  | [], [] => true
  | a::as, b::bs => Var.beq a b && Var.beqList as bs
  | _, _ => false
end

mutual
theorem Var.beq_iff : ∀ a b : Var, Var.beq a b = true ↔ a = b
  | .list a, b => by
    cases b <;> simp [Var.beq, Var.beqList_iff a]
  | .int _, b | .obj _, b | .str _, b | .err _, b | .clear, b | .none, b
  | .catch _, b | .finally _, b | .float _, b | .waif _, b => by
    cases b <;> simp [Var.beq]
theorem Var.beqList_iff : ∀ a b : List Var, Var.beqList a b = true ↔ a = b
  | [], b => by cases b <;> simp [Var.beqList]
  | a::as, b => by
    cases b with
    | nil => simp [Var.beqList]
    | cons b bs => simp [Var.beqList, Var.beq_iff a, Var.beqList_iff as]
end

instance : DecidableEq Var := fun a b => decidable_of_iff _ (Var.beq_iff a b)

/-- The arithmetic on C doubles that the server relies on; `pow` is `none`
where the library reports a domain or range error. -/
class FloatOps where
  lt : Fnum → Fnum → Bool
  add : Fnum → Fnum → Fnum
  sub : Fnum → Fnum → Fnum
  mul : Fnum → Fnum → Fnum
  div : Fnum → Fnum → Fnum
  fmod : Fnum → Fnum → Fnum
  pow : Fnum → Fnum → Option Fnum
  neg : Fnum → Fnum
  ofNum : Num → Fnum
  isReal : Fnum → Bool
  zero : Fnum

/-- Arithmetic of a server that meets no floating-point numbers. -/
@[reducible] def noFloats : FloatOps where
  lt _ _ := false
  add x _ := x
  sub x _ := x
  mul x _ := x
  div x _ := x
  fmod x _ := x
  pow _ _ := none
  neg x := x
  ofNum _ := ⟨0⟩
  isReal _ := true
  zero := ⟨0⟩

/-- The case-folding table `cmap`: ASCII upper case to lower case. -/
def cmap (c : Byte) : Byte := if 65 ≤ c.toNat ∧ c.toNat ≤ 90 then c+32 else c

/-- A table entry as the `char` the comparison subtracts. -/
def cmapChar (c : Byte) : Int := (cmap c).toBitVec.toInt

def mystrcasecmp : Str → Str → Int
  | [], [] => 0
  | [], t::_ => -cmapChar t
  | s::_, [] => cmapChar s
  | s::ss, t::ts => if cmap s = cmap t then mystrcasecmp ss ts else cmapChar s-cmapChar t

mutual
/-- A value of any other type, which no list or variable holds, stops the server here. -/
def equality (caseMatters : Bool) : Var → Var → Bool
  | .float a, .float b => a == b
  | .int a, .int b => a == b
  | .obj a, .obj b => a == b
  | .err a, .err b => a == b
  | .str a, .str b => if caseMatters then a == b else mystrcasecmp a b == 0
  | .list a, .list b => a.length == b.length && equalityList caseMatters a b
  | .waif a, .waif b => a == b
  | _, _ => false
def equalityList (caseMatters : Bool) : List Var → List Var → Bool
  | a::as, b::bs => equality caseMatters a b && equalityList caseMatters as bs
  | _, _ => true
end

mutual
/-- A comparison in which case matters tells apart all the values it accepts. -/
theorem equality_eq : ∀ a b : Var, equality true a b = true → a = b
  | .list a, b, h => by
    cases b with
    | list b =>
      simp only [equality, Bool.and_eq_true, beq_iff_eq] at h
      rw [equalityList_eq a b h.1 h.2]
    | _ => simp [equality] at h
  | .int _, b, h | .obj _, b, h | .str _, b, h | .err _, b, h | .clear, b, h | .none, b, h
  | .catch _, b, h | .finally _, b, h | .float _, b, h | .waif _, b, h => by
    cases b <;> simp_all [equality]
theorem equalityList_eq : ∀ a b : List Var, a.length = b.length →
    equalityList true a b = true → a = b
  | [], b, hl, _ => (List.length_eq_zero_iff.mp hl.symm).symm
  | a::as, b, hl, h => by
    cases b with
    | nil => simp at hl
    | cons b bs =>
      simp only [equalityList, Bool.and_eq_true] at h
      rw [equality_eq a b h.1, equalityList_eq as bs (Nat.succ.inj hl) h.2]
end

/-- The type tag, which `add_literal` compares before the values. -/
inductive VarType where
  | int | obj | str | err | list | clear | none | catch | finally | float | waif
  deriving DecidableEq, Repr

def Var.type : Var → VarType
  | .int _ => .int | .obj _ => .obj | .str _ => .str | .err _ => .err | .list _ => .list
  | .clear => .clear | .none => .none | .catch _ => .catch | .finally _ => .finally
  | .float _ => .float | .waif _ => .waif

/-- The bytes of a C string literal. -/
def ascii (s : String) : Str := s.toList.map fun c => UInt8.ofNat c.toNat

def truth (b : Bool) : Var := .int (if b then 1 else 0)

/-- A `Num` passed as an `int`. -/
def toInt32 (n : Num) : ℤ := (n.setWidth 32).toInt

/-- The values of `int`. Arithmetic that leaves them is not defined by C. -/
def FitsInt (n : ℤ) : Prop := -2^31 ≤ n ∧ n < 2^31

instance (n : ℤ) : Decidable (FitsInt n) := inferInstanceAs (Decidable (_ ∧ _))

theorem toInt32_fits (n : Num) : FitsInt (toInt32 n) := by
  rw [toInt32]
  exact ⟨BitVec.le_toInt _, BitVec.toInt_lt⟩

theorem toInt32_eq {n : Num} (h : FitsInt n.toInt) : toInt32 n = n.toInt := by
  have hlt := n.isLt
  obtain ⟨h₁, h₂⟩ := h
  rw [toInt32]
  rw [BitVec.toInt_eq_toNat_cond] at h₁ h₂ ⊢
  rw [BitVec.toInt_eq_toNat_cond, BitVec.toNat_setWidth]
  split at h₁ <;> split <;> omega

end LambdaMoo
