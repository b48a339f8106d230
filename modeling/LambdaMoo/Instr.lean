import LambdaMoo.CodeGen

/-!
# Instructions in a byte vector

`run()` and `decompile()` read an opcode and its operands from a vector with
the same macros. `fetch` is that common prologue: the instruction at an
offset with its operands decoded, and the offset after it.
-/

set_option autoImplicit false

namespace LambdaMoo

/-- `READ_BYTES`: a big-endian operand of `n` bytes. -/
def readBytes (vector : List Byte) (pos : ℕ) : ℕ → Option ℕ
  | 0 => some 0
  | n+1 => do
    let hi ← readBytes vector pos n
    let b ← vector[pos+n]?
    return hi*256+b.toNat

inductive TestOp where
  | if | while | eif | ifQues
  deriving DecidableEq, Repr

inductive Instr where
  | test (op : TestOp) (label : ℕ)
  | jump (label : ℕ)
  | forList (id label : ℕ)
  | forRange (id label : ℕ)
  | fork (f : ℕ) (id : Option ℕ)
  | pop
  | imm (slot : ℕ)
  | num (n : Num)
  | makeEmptyList
  | makeSingletonList
  | checkListForSplice
  | listAddTail
  | listAppend
  | indexset
  | rangeset
  | putTemp
  | pushTemp
  | binary (op : BinaryOp)
  | unary (op : UnaryOp)
  | and (label : ℕ)
  | or (label : ℕ)
  | ref
  | pushRef
  | rangeRef
  | put (ready : Bool) (id : ℕ)
  | push (id : ℕ)
  | getProp
  | pushGetProp
  | putProp
  | callVerb
  | return
  | return0
  | done
  | biFuncCall (func : ℕ)
  | length (index : ℕ)
  | scatter (nargs nreq rest : ℕ) (targets : List (ℕ × ℕ)) (done : ℕ)
  | pushLabel (label : ℕ)
  | tryFinally (label : ℕ)
  | catch
  | tryExcept (count : ℕ)
  | endCatch (label : ℕ)
  | endExcept (label : ℕ)
  | endFinally
  | continue
  | whileId (id label : ℕ)
  | exit (id : Option ℕ) (stack label : ℕ)
  deriving DecidableEq, Repr

namespace Bytecodes

variable (bc : Bytecodes)

def readLabel (pos : ℕ) : Option (ℕ × ℕ) :=
  (readBytes bc.vector pos bc.numbytesLabel).map (·, pos+bc.numbytesLabel)

def readLiteral (pos : ℕ) : Option (ℕ × ℕ) :=
  (readBytes bc.vector pos bc.numbytesLiteral).map (·, pos+bc.numbytesLiteral)

def readFork (pos : ℕ) : Option (ℕ × ℕ) :=
  (readBytes bc.vector pos bc.numbytesFork).map (·, pos+bc.numbytesFork)

def readId (pos : ℕ) : Option (ℕ × ℕ) :=
  (readBytes bc.vector pos bc.numbytesVarName).map (·, pos+bc.numbytesVarName)

def readStack (pos : ℕ) : Option (ℕ × ℕ) :=
  (readBytes bc.vector pos bc.numbytesStack).map (·, pos+bc.numbytesStack)

def readByte (pos : ℕ) : Option (ℕ × ℕ) := bc.vector[pos]?.map (·.toNat, pos+1)

/-- The variable and label operands of the targets of `EOP_SCATTER`. -/
def readTargets : ℕ → ℕ → Option (List (ℕ × ℕ) × ℕ)
  | 0, pos => some ([], pos)
  | n+1, pos => do
    let (id, pos) ← bc.readId pos
    let (label, pos) ← bc.readLabel pos
    let (targets, pos) ← readTargets n pos
    return ((id, label)::targets, pos)

def withLabel (pos : ℕ) (instr : ℕ → Instr) : Option (Instr × ℕ) := do
  let (label, pos) ← bc.readLabel pos
  return (instr label, pos)

def withIdLabel (pos : ℕ) (instr : ℕ → ℕ → Instr) : Option (Instr × ℕ) := do
  let (id, pos) ← bc.readId pos
  let (label, pos) ← bc.readLabel pos
  return (instr id label, pos)

/-- The operands of an extended opcode. -/
def decodeExtended (eop : ExtendedOpcode) (pos : ℕ) : Option (Instr × ℕ) := do
  match eop with
  | .rangeset => return (.rangeset, pos)
  | .length =>
    let (index, pos) ← bc.readStack pos
    return (.length index, pos)
  | .pushLabel => bc.withLabel pos .pushLabel
  | .endCatch => bc.withLabel pos .endCatch
  | .endExcept => bc.withLabel pos .endExcept
  | .endFinally => return (.endFinally, pos)
  | .continue => return (.continue, pos)
  | .catch => return (.catch, pos)
  | .tryExcept =>
    let (count, pos) ← bc.readByte pos
    return (.tryExcept count, pos)
  | .tryFinally => bc.withLabel pos .tryFinally
  | .whileId => bc.withIdLabel pos .whileId
  | .exit =>
    let (stack, pos) ← bc.readStack pos
    bc.withLabel pos (.exit none stack)
  | .exitId =>
    let (id, pos) ← bc.readId pos
    let (stack, pos) ← bc.readStack pos
    bc.withLabel pos (.exit (some id) stack)
  | .scatter =>
    let (nargs, pos) ← bc.readByte pos
    let (nreq, pos) ← bc.readByte pos
    let (rest, pos) ← bc.readByte pos
    let (targets, pos) ← bc.readTargets nargs pos
    bc.withLabel pos (.scatter nargs nreq rest targets)
  | .exp => return (.binary .exp, pos)
  | .bitand => return (.binary .bitand, pos)
  | .bitxor => return (.binary .bitxor, pos)
  | .bitor => return (.binary .bitor, pos)
  | .shl => return (.binary .shl, pos)
  | .shr => return (.binary .shr, pos)
  | .lshr => return (.binary .lshr, pos)
  | .complement => return (.unary .complement, pos)

def fetchExtended (pos : ℕ) : Option (Instr × ℕ) := do
  let b ← bc.vector[pos]?
  let eop ← ExtendedOpcode.ofByte b
  bc.decodeExtended eop (pos+1)

/-- The operands of an opcode. -/
def decode (op : Opcode) (pos : ℕ) : Option (Instr × ℕ) := do
  match op with
  | .if => bc.withLabel pos (.test .if)
  | .while => bc.withLabel pos (.test .while)
  | .eif => bc.withLabel pos (.test .eif)
  | .ifQues => bc.withLabel pos (.test .ifQues)
  | .fork =>
    let (f, pos) ← bc.readFork pos
    return (.fork f none, pos)
  | .forkWithId =>
    let (f, pos) ← bc.readFork pos
    let (id, pos) ← bc.readId pos
    return (.fork f (some id), pos)
  | .forList => bc.withIdLabel pos .forList
  | .forRange => bc.withIdLabel pos .forRange
  | .indexset => return (.indexset, pos)
  | .pushGetProp => return (.pushGetProp, pos)
  | .getProp => return (.getProp, pos)
  | .callVerb => return (.callVerb, pos)
  | .putProp => return (.putProp, pos)
  | .biFuncCall =>
    let (func, pos) ← bc.readByte pos
    return (.biFuncCall func, pos)
  | .ref => return (.ref, pos)
  | .rangeRef => return (.rangeRef, pos)
  | .makeSingletonList => return (.makeSingletonList, pos)
  | .checkListForSplice => return (.checkListForSplice, pos)
  | .mult => return (.binary .times, pos)
  | .div => return (.binary .divide, pos)
  | .mod => return (.binary .mod, pos)
  | .add => return (.binary .plus, pos)
  | .minus => return (.binary .minus, pos)
  | .eq => return (.binary .eq, pos)
  | .ne => return (.binary .ne, pos)
  | .lt => return (.binary .lt, pos)
  | .le => return (.binary .le, pos)
  | .gt => return (.binary .gt, pos)
  | .ge => return (.binary .ge, pos)
  | .in => return (.binary .in, pos)
  | .and => bc.withLabel pos .and
  | .or => bc.withLabel pos .or
  | .unaryMinus => return (.unary .negate, pos)
  | .not => return (.unary .not, pos)
  | .put n => return (.put true n, pos)
  | .gPut =>
    let (id, pos) ← bc.readId pos
    return (.put false id, pos)
  | .push n => return (.push n, pos)
  | .gPush =>
    let (id, pos) ← bc.readId pos
    return (.push id, pos)
  | .imm =>
    let (slot, pos) ← bc.readLiteral pos
    return (.imm slot, pos)
  | .makeEmptyList => return (.makeEmptyList, pos)
  | .listAddTail => return (.listAddTail, pos)
  | .listAppend => return (.listAppend, pos)
  | .pushRef => return (.pushRef, pos)
  | .putTemp => return (.putTemp, pos)
  | .pushTemp => return (.pushTemp, pos)
  | .jump => bc.withLabel pos .jump
  | .return => return (.return, pos)
  | .return0 => return (.return0, pos)
  | .done => return (.done, pos)
  | .pop => return (.pop, pos)
  | .extended => bc.fetchExtended pos
  | .optimNum n => return (.num (opcodeToOptimNum n), pos)

/-- The instruction at an offset; nothing where the bytes end or the extended
opcode is unknown. -/
def fetch (pos : ℕ) : Option (Instr × ℕ) := do
  let b ← bc.vector[pos]?
  bc.decode (Opcode.ofByte b) (pos+1)

end Bytecodes
end LambdaMoo
