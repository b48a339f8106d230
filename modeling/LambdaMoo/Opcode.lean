import LambdaMoo.Ast

/-!
# Opcodes

The opcode numbering without `BYTECODE_REDUCE_REF`, which is how the server
is configured. `OP_PUT + n`, `OP_PUSH + n` and the small-integer opcodes are
families, so each is one constructor with its index.
-/

set_option autoImplicit false

namespace LambdaMoo

def numReadyVars : ℕ := 32

inductive Opcode where
  | if | while | eif | fork | forkWithId | forList | forRange
  | indexset | pushGetProp | getProp | callVerb | putProp
  | biFuncCall | ifQues | ref | rangeRef
  | makeSingletonList | checkListForSplice
  | mult | div | mod | add | minus
  | eq | ne | lt | le | gt | ge | in
  | and | or
  | unaryMinus | not
  | put (n : Fin 32) | gPut
  | push (n : Fin 32) | gPush
  | imm | makeEmptyList | listAddTail | listAppend
  | pushRef | putTemp | pushTemp
  | jump | return | return0 | done | pop
  | extended
  | optimNum (n : Fin 143)
  deriving DecidableEq, Repr

def Opcode.toNat : Opcode → ℕ
  | .if => 0 | .while => 1 | .eif => 2 | .fork => 3 | .forkWithId => 4
  | .forList => 5 | .forRange => 6
  | .indexset => 7 | .pushGetProp => 8 | .getProp => 9 | .callVerb => 10
  | .putProp => 11 | .biFuncCall => 12 | .ifQues => 13 | .ref => 14 | .rangeRef => 15
  | .makeSingletonList => 16 | .checkListForSplice => 17
  | .mult => 18 | .div => 19 | .mod => 20 | .add => 21 | .minus => 22
  | .eq => 23 | .ne => 24 | .lt => 25 | .le => 26 | .gt => 27 | .ge => 28 | .in => 29
  | .and => 30 | .or => 31 | .unaryMinus => 32 | .not => 33
  | .put n => 34+n.val | .gPut => 66
  | .push n => 67+n.val | .gPush => 99
  | .imm => 100 | .makeEmptyList => 101 | .listAddTail => 102 | .listAppend => 103
  | .pushRef => 104 | .putTemp => 105 | .pushTemp => 106
  | .jump => 107 | .return => 108 | .return0 => 109 | .done => 110 | .pop => 111
  | .extended => 112
  | .optimNum n => 113+n.val

/-- The opcodes below the two operand families, in the order of the enumeration. -/
def Opcode.plain : List Opcode :=
  [.if, .while, .eif, .fork, .forkWithId, .forList, .forRange,
    .indexset, .pushGetProp, .getProp, .callVerb, .putProp,
    .biFuncCall, .ifQues, .ref, .rangeRef,
    .makeSingletonList, .checkListForSplice,
    .mult, .div, .mod, .add, .minus,
    .eq, .ne, .lt, .le, .gt, .ge, .in, .and, .or, .unaryMinus, .not]

/-- The opcodes between `OP_G_PUSH` and the small integers. -/
def Opcode.quiet : List Opcode :=
  [.imm, .makeEmptyList, .listAddTail, .listAppend, .pushRef, .putTemp, .pushTemp,
    .jump, .return, .return0, .done, .pop, .extended]

def Opcode.ofByte (b : Byte) : Opcode :=
  let o := b.toNat
  if h : o < 34 then Opcode.plain.get ⟨o, h⟩
  else if o < 66 then .put (Fin.ofNat 32 (o-34))
  else if o < 67 then .gPut
  else if o < 99 then .push (Fin.ofNat 32 (o-67))
  else if o < 100 then .gPush
  else if h : o-100 < 13 then Opcode.quiet.get ⟨o-100, h⟩
  else .optimNum (Fin.ofNat 143 (o-113))

def Opcode.toByte (op : Opcode) : Byte := UInt8.ofNat op.toNat

theorem Opcode.toNat_lt (op : Opcode) : op.toNat < 256 := by
  cases op <;> simp only [Opcode.toNat] <;> omega

set_option maxRecDepth 2000 in
theorem Opcode.ofByte_toByte (op : Opcode) : Opcode.ofByte op.toByte = op := by
  cases op with
  | put n => revert n; decide
  | push n => revert n; decide
  | optimNum n => revert n; decide
  | _ => rfl

inductive ExtendedOpcode where
  | rangeset | length | pushLabel | endCatch | endExcept | endFinally | continue
  | catch | tryExcept | tryFinally | whileId | exit | exitId | scatter | exp
  | bitand | bitxor | bitor | shl | shr | lshr | complement
  deriving DecidableEq, Repr

def ExtendedOpcode.all : List ExtendedOpcode :=
  [.rangeset, .length, .pushLabel, .endCatch, .endExcept, .endFinally, .continue,
    .catch, .tryExcept, .tryFinally, .whileId, .exit, .exitId, .scatter, .exp,
    .bitand, .bitxor, .bitor, .shl, .shr, .lshr, .complement]

def ExtendedOpcode.toNat (eop : ExtendedOpcode) : ℕ := ExtendedOpcode.all.idxOf eop

def ExtendedOpcode.toByte (eop : ExtendedOpcode) : Byte := UInt8.ofNat eop.toNat

def ExtendedOpcode.ofByte (b : Byte) : Option ExtendedOpcode := ExtendedOpcode.all[b.toNat]?

theorem ExtendedOpcode.toNat_lt (eop : ExtendedOpcode) : eop.toNat < 256 := by
  cases eop <;> decide

theorem ExtendedOpcode.ofByte_toByte (eop : ExtendedOpcode) :
    ExtendedOpcode.ofByte eop.toByte = some eop := by
  cases eop <;> rfl

/-! Small integer literals have opcodes of their own, from `OPTIM_NUM_LOW` up. -/

def optimNumStart : ℕ := 113
def optimNumLow : Int := -10
def optimNumHi : Int := 255-optimNumStart+optimNumLow

def inOptimNumRange (n : Num) : Bool := optimNumLow ≤ n.toInt && n.toInt ≤ optimNumHi

def optimNumToOpcode (n : Num) : Opcode := .optimNum (Fin.ofNat 143 (n.toInt-optimNumLow).toNat)

def opcodeToOptimNum (n : Fin 143) : Num := BitVec.ofInt 64 ((n.val : Int)+optimNumLow)

theorem optim_num_roundtrip (n : Num) (h : inOptimNumRange n = true) :
    ∃ k, optimNumToOpcode n = .optimNum k ∧ opcodeToOptimNum k = n := by
  refine ⟨Fin.ofNat 143 (n.toInt-optimNumLow).toNat,rfl,?_⟩
  have hr : -10 ≤ n.toInt ∧ n.toInt ≤ 132 := by
    simp only [inOptimNumRange, Bool.and_eq_true, decide_eq_true_eq] at h
    exact h
  have hm : (n.toInt-optimNumLow).toNat % 143 = (n.toInt-optimNumLow).toNat :=
    Nat.mod_eq_of_lt (by unfold optimNumLow; omega)
  have hn : (((n.toInt-optimNumLow).toNat : ℕ) : Int)+optimNumLow = n.toInt := by
    unfold optimNumLow; omega
  simp only [opcodeToOptimNum, Fin.ofNat, hm, hn, BitVec.ofInt_toInt]

/-- The plain opcode of a binary operator, or its extended opcode. -/
def BinaryOp.opcode : BinaryOp → Opcode ⊕ ExtendedOpcode
  | .plus => .inl .add | .minus => .inl .minus | .times => .inl .mult
  | .divide => .inl .div | .mod => .inl .mod | .exp => .inr .exp
  | .eq => .inl .eq | .ne => .inl .ne | .lt => .inl .lt | .le => .inl .le
  | .gt => .inl .gt | .ge => .inl .ge | .in => .inl .in
  | .bitor => .inr .bitor | .bitxor => .inr .bitxor | .bitand => .inr .bitand
  | .shl => .inr .shl | .shr => .inr .shr | .lshr => .inr .lshr

def UnaryOp.opcode : UnaryOp → Opcode ⊕ ExtendedOpcode
  | .negate => .inl .unaryMinus | .not => .inl .not | .complement => .inr .complement

end LambdaMoo
