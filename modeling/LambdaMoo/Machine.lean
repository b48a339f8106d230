import LambdaMoo.Activation
import LambdaMoo.DbIo
import LambdaMoo.Numbers
import LambdaMoo.Unwind

/-!
# The machine

What `run()` does at every instruction, in one activation with the debug flag
on and with ticks left. Properties, verbs, built-in functions and the task
queue belong to a host that is a parameter. An error, a return or a loop exit
cuts the operand stack of the activation back to the next handler, and the run
of the activation ends where there is none.
-/

set_option autoImplicit false

namespace LambdaMoo.Run
open LambdaMoo.Execute LambdaMoo.CodeGen LambdaMoo.Numbers

/-! ## Operators -/

section Operators
variable [FloatOps]

def isTrue : Var → Bool
  | .int n => n ≠ 0
  | .float x => x ≠ FloatOps.zero
  | .str s => !s.isEmpty
  | .list l => !l.isEmpty
  | _ => false

def isNumber (v : Var) : Bool := v.type = .int ∨ v.type = .float

/-- `SIMPLE_BINARY`. -/
def simpleBinary (iop : Num → Num → Num) (fop : Fnum → Fnum → Fnum) : Var → Var → Var
  | .int a, .int b => .int (iop a b)
  | .float x, .float y => if FloatOps.isReal (fop x y) then .float (fop x y) else .err .float
  | _, _ => .err .type

def doAdd : Var → Var → Var := simpleBinary (·+·) FloatOps.add
def doSubtract : Var → Var → Var := simpleBinary (·-·) FloatOps.sub
def doMultiply : Var → Var → Var := simpleBinary (·*·) FloatOps.mul

def compareIntegers (a b : Num) : ℤ :=
  if a.toInt < b.toInt then -1 else if a.toInt > b.toInt then 1 else 0

/-- The comparison of `OP_LT` and its siblings. -/
def comparison : Var → Var → Except Err ℤ
  | .int a, .int b => .ok (compareIntegers a b)
  | .float x, .float y =>
    .ok (if FloatOps.lt x y then -1 else if FloatOps.lt y x then 1 else 0)
  | .obj a, .obj b => .ok (compareIntegers a b)
  | .err a, .err b => .ok ((DbIo.errCode a : ℤ)-DbIo.errCode b)
  | .str a, .str b => .ok (mystrcasecmp a b)
  | .list _, _ => .error .type
  | a, b => if a.type = b.type then .ok 0 else .error .type

def compared (holds : ℤ → Bool) (lhs rhs : Var) : Var :=
  match comparison lhs rhs with
  | .ok c => truth (holds c)
  | .error e => .err e

def ismember (lhs : Var) (rhs : List Var) : Num :=
  match rhs.findIdx? (equality false lhs) with
  | some i => BitVec.ofNat 64 (i+1)
  | none => 0

/-- `OP_MULT`, `OP_MINUS`, `OP_DIV` and `OP_MOD`, around the operation on numbers. -/
def arithmetic (op : Var → Var → Result Var) (lhs rhs : Var) : Result Var :=
  if isNumber lhs && isNumber rhs then op lhs rhs else return .err .type

def bitwise (op : Num → Num → Num) : Var → Var → Var
  | .int a, .int b => .int (op a b)
  | _, _ => .err .type

/-- What a binary operator pushes, or the error that it raises. -/
def binaryOp : BinaryOp → Var → Var → Result Var
  | .plus, .str a, .str b => return .str (a++b)
  | .plus, lhs, rhs => arithmetic (fun a b => return doAdd a b) lhs rhs
  | .minus, lhs, rhs => arithmetic (fun a b => return doSubtract a b) lhs rhs
  | .times, lhs, rhs => arithmetic (fun a b => return doMultiply a b) lhs rhs
  | .divide, lhs, rhs => arithmetic doDivide lhs rhs
  | .mod, lhs, rhs => arithmetic doModulus lhs rhs
  | .exp, lhs, rhs => doPower lhs rhs
  | .eq, lhs, rhs => return truth (equality false rhs lhs)
  | .ne, lhs, rhs => return truth (!equality false rhs lhs)
  | .lt, lhs, rhs => return compared (· < 0) lhs rhs
  | .le, lhs, rhs => return compared (· ≤ 0) lhs rhs
  | .gt, lhs, rhs => return compared (· > 0) lhs rhs
  | .ge, lhs, rhs => return compared (· ≥ 0) lhs rhs
  | .in, lhs, .list rhs => return .int (ismember lhs rhs)
  | .in, _, _ => return .err .type
  | .bitor, lhs, rhs => return bitwise (· ||| ·) lhs rhs
  | .bitxor, lhs, rhs => return bitwise (· ^^^ ·) lhs rhs
  | .bitand, lhs, rhs => return bitwise (· &&& ·) lhs rhs
  | .shl, lhs, rhs => runShift .shl lhs rhs
  | .shr, lhs, rhs => runShift .shr lhs rhs
  | .lshr, lhs, rhs => runShift .lshr lhs rhs

def unaryOp : UnaryOp → Var → Var
  | .negate, .int n => .int (-n)
  | .negate, .float x => .float (FloatOps.neg x)
  | .negate, _ => .err .type
  | .not, v => truth (!isTrue v)
  | .complement, .int n => .int (~~~n)
  | .complement, _ => .err .type

end Operators

/-- A value, or the error that it stands for. -/
def answer : Var → Except Err Var
  | .err e => .error e
  | v => .ok v

/-- `OP_PUSH_REF`, which leaves its operands. -/
def opPushRef : Var → Var → Result (Except Err Var)
  | .list l, .int i =>
    if i.toInt ≤ 0 ∨ i.toInt > l.length then return .error .range
    else match l[(i.toInt-1).toNat]? with
      | some v => return .ok v
      | none => .error (.undefined "element of a list")
  | _, _ => return .error .type

/-- `OP_MAKE_SINGLETON_LIST` and `OP_CHECK_LIST_FOR_SPLICE`. -/
def firstList : ArgKind → Var → Except Err Var
  | .normal, v => .ok (.list [v])
  | .splice, .list l => .ok (.list l)
  | .splice, _ => .error .type

/-- `OP_LIST_ADD_TAIL` and `OP_LIST_APPEND`. -/
def nextList : ArgKind → Var → Var → Except Err Var
  | .normal, .list l, tail => .ok (.list (l++[tail]))
  | .splice, .list l, .list tail => .ok (.list (l++tail))
  | _, _, _ => .error .type

def variableValue : Var → Except Err Var
  | .none => .error .varnf
  | v => .ok v

/-! ## The machine -/

/-- A call of something that changes the rest of the server: a value or the code of an error. -/
abbrev Call (σ : Type) := σ → Result (Except Var Var × σ)

structure Host (σ : Type) where
  getProp : Var → Var → Call σ
  putProp : Var → Var → Var → Call σ
  callVerb : Var → Var → Var → Call σ
  callBiFunc : ℕ → Var → Call σ
  /-- The verbs that index a waif, for the arguments they get. -/
  dict : WaifRef → List Var → Call σ
  /-- The number of the new task, for the vector, the delay, the variable and the variables. -/
  fork : ℕ → Num → Option ℕ → (ℕ → Var) → σ → Result (Except Err Num × σ)
  /-- What a handler is told after the code of an error: message, value and traceback. -/
  report : Var → σ → List Var
  /-- There is a handler for the code in an activation below. -/
  catches : Var → σ → Bool

/-- The temporary register of an activation, and the rest of the server. -/
structure Regs (σ : Type) where
  temp : Var
  world : σ

/-- What an instruction comes to. -/
inductive Move (σ : Type) where
  | next (a : Activ (Regs σ))
  | raise (code : Var) (a : Activ (Regs σ))
  | unwind (why : Reason) (value : Var) (a : Activ (Regs σ))

/-- What comes of that in the activation. -/
inductive Progress (σ : Type) where
  | next (a : Activ (Regs σ))
  | leave (why : Reason) (value : Var) (a : Activ (Regs σ))

section Machine
variable {σ : Type}

def Outcome.move : Outcome (Regs σ) → Move σ
  | .next a => .next a
  | .raise e a => .raise (.err e) a

def moveOf (r : Result (Outcome (Regs σ))) : Result (Move σ) := do return (← r).move

def Frame.inWorld (f : Frame (Regs σ)) (w : σ) : Frame (Regs σ) :=
  { f with world := { f.world with world := w } }

def Frame.withTemp (f : Frame (Regs σ)) (v : Var) : Frame (Regs σ) :=
  { f with world := { f.world with temp := v } }

/-- `PUSH` or `RAISE_ERROR`, with the operands gone that are popped. -/
def call (a : Activ (Regs σ)) (st : List Var) (k : Call σ) : Result (Move σ) := do
  let (r, w) ← k a.frame.world.world
  match r with
  | .ok v => return .next ⟨a.pc, v::st, a.frame.inWorld w⟩
  | .error code => return .raise code ⟨a.pc, st, a.frame.inWorld w⟩

/-- A result that needs nothing of the server. -/
def still (r : Result (Except Err Var)) : Call σ := fun w => do
  match ← r with
  | .ok v => return (.ok v, w)
  | .error e => return (.error (.err e), w)

def given (r : Except Err Var) : Call σ := still (.ok r)

/-- Indexing is of a list or a string, or calls a verb for a waif. -/
def refCall (host : Host σ) (base index : Var) : Call σ :=
  match base with
  | .waif w => host.dict w [index]
  | base => still (opRef (fun _ _ => return .error .type) base index)

def indexsetCall (host : Host σ) (base index value : Var) : Call σ :=
  match base with
  | .waif w => host.dict w [index, value]
  | base => still (opIndexset (fun _ _ => return .error .type) base index value)

/-- `OP_IMM`; an `OP_POP` behind it is taken along. -/
def imm (T : Tables) (bc : Bytecodes) (slot : ℕ) (a : Activ (Regs σ)) : Result (Move σ) :=
  if bc.vector[a.pc]? = some (Opcode.toByte .pop) then return .next { a with pc := a.pc+1 }
  else match T.literals[slot]? with
    | some v => return .next { a with stack := v::a.stack }
    | none => .error (.undefined "literal")

/-- `EOP_LENGTH`; the operands are counted from the base of the stack. -/
def opLength (index : ℕ) (a : Activ (Regs σ)) : Result (Move σ) :=
  match a.stack.reverse[index]? with
  | some v => call a a.stack (still (bfLength v))
  | none => .error (.undefined "operand stack")

/-- The handlers under a marker are popped, and what is above it is put back. -/
def endHandlers (label : ℕ) (above : List Var) (a : Activ (Regs σ)) : List Var → Result (Move σ)
  | .catch num::st =>
    if 2*num.toNat ≤ st.length then
      return .next { a with pc := label, stack := above++st.drop (2*num.toNat) }
    else underflow
  | _::_ => .error (.panic "Stack marker is not TYPE_CATCH!")
  | [] => underflow

/-- What `enqueue_forked_task` tells, and the variable that it sets. -/
def forkTask (f : ℕ) (id : Option ℕ) (delay : Num) (host : Host σ) (a : Activ (Regs σ)) :
    Result (Move σ) := do
  let (r, w) ← host.fork f delay id a.frame.env a.frame.world.world
  let frame := a.frame.inWorld w
  match r with
  | .ok task => return .next { a with frame := id.elim frame fun id => frame.set id (.int task) }
  | .error e => return .raise (.err e) { a with frame := frame }

/-- `OP_FORK`. -/
def fork (host : Host σ) (f : ℕ) (id : Option ℕ) (a : Activ (Regs σ)) : Result (Move σ) :=
  match a.stack with
  | .int delay::st =>
    if delay.toInt < 0 then return .raise (.err .invarg) ⟨a.pc, st, a.frame⟩
    else forkTask f id delay host ⟨a.pc, st, a.frame⟩
  | _::st => return .raise (.err .type) ⟨a.pc, st, a.frame⟩
  | [] => underflow

def reasonOf (n : Num) : Option Reason :=
  if n = 1 then some .raise else if n = 2 then some .uncaught else if n = 3 then some .return
  else if n = 5 then some .exit else none

/-- `EOP_CONTINUE`. -/
def opContinue (a : Activ (Regs σ)) : Result (Move σ) :=
  match a.stack with
  | value::.int why::st =>
    if why = 0 then return .next ⟨a.pc, st, a.frame⟩
    else match reasonOf why with
      | some why => return .unwind why value ⟨a.pc, st, a.frame⟩
      | none => .error (.panic "Unknown FINALLY reason!")
  | _::_::_ => .error (.panic "Unknown FINALLY reason!")
  | _ => underflow

/-- The value that `EOP_EXIT` unwinds with. -/
def exitValue (stack label : ℕ) : Var :=
  .list [.int (BitVec.ofNat 64 stack), .int (BitVec.ofNat 64 label)]

variable [FloatOps] (host : Host σ) (T : Tables)

/-- An instruction, with the program counter behind it. -/
def execInstr (bc : Bytecodes) (i : Instr) (a : Activ (Regs σ)) : Result (Move σ) :=
  match i, a.stack with
  | .imm slot, _ => imm T bc slot a
  | .push id, st => call a st (given (variableValue (a.frame.env id)))
  | .makeEmptyList, st => return .next ⟨a.pc, .list []::st, a.frame⟩
  | .makeSingletonList, v::st => call a st (given (firstList .normal v))
  | .checkListForSplice, v::st => call a st (given (firstList .splice v))
  | .listAddTail, tail::list::st => call a st (given (nextList .normal list tail))
  | .listAppend, tail::list::st => call a st (given (nextList .splice list tail))
  | .binary op, rhs::lhs::st => call a st (still (do return answer (← binaryOp op lhs rhs)))
  | .unary op, v::st => call a st (given (answer (unaryOp op v)))
  | .and label, v::st =>
    return .next (if isTrue v then ⟨a.pc, st, a.frame⟩ else ⟨label, v::st, a.frame⟩)
  | .or label, v::st =>
    return .next (if isTrue v then ⟨label, v::st, a.frame⟩ else ⟨a.pc, st, a.frame⟩)
  | .test _ label, v::st => return .next ⟨if isTrue v then a.pc else label, st, a.frame⟩
  | .whileId id label, v::st =>
    return .next ⟨if isTrue v then a.pc else label, st, a.frame.set id v⟩
  | .ref, index::base::st => call a st (refCall host base index)
  | .pushRef, index::base::st => call a (index::base::st) (still (opPushRef base index))
  | .rangeRef, hi::lo::base::st => call a st (still (opRangeRef base lo hi))
  | .indexset, value::index::base::st => call a st (indexsetCall host base index value)
  | .rangeset, value::hi::lo::base::st => call a st (still (rangeset base lo hi value))
  | .putTemp, v::st => return .next ⟨a.pc, v::st, a.frame.withTemp v⟩
  | .pushTemp, st => return .next ⟨a.pc, a.frame.world.temp::st, a.frame.withTemp .none⟩
  | .length index, _ => opLength index a
  | .getProp, name::obj::st => call a st (host.getProp obj name)
  | .pushGetProp, name::obj::st => call a (name::obj::st) (host.getProp obj name)
  | .putProp, value::name::obj::st => call a st (host.putProp obj name value)
  | .callVerb, args::name::obj::st => call a st (host.callVerb obj name args)
  | .biFuncCall func, args::st => call a st (host.callBiFunc func args)
  | .fork f id, _ => fork host f id a
  | .return, v::st => return .unwind .return v ⟨a.pc, st, a.frame⟩
  | .return0, _ | .done, _ => return .unwind .return zero a
  | .pushLabel label, st => return .next ⟨a.pc, .int (BitVec.ofNat 64 label)::st, a.frame⟩
  | .tryFinally label, st => return .next ⟨a.pc, .finally (BitVec.ofNat 64 label)::st, a.frame⟩
  | .catch, st => return .next ⟨a.pc, .catch 1::st, a.frame⟩
  | .tryExcept count, st => return .next ⟨a.pc, .catch (BitVec.ofNat 64 count)::st, a.frame⟩
  | .endCatch label, v::st => endHandlers label [v] a st
  | .endExcept label, st => endHandlers label [] a st
  | .endFinally, .finally _::st => return .next ⟨a.pc, zero::.int Reason.fallThru.toNum::st, a.frame⟩
  | .endFinally, _::_ => .error (.panic "Stack marker is not TYPE_FINALLY!")
  | .continue, _ => opContinue a
  | .exit _ stack label, _ => return .unwind .exit (exitValue stack label) a
  | .jump _, _ | .num _, _ | .pop, _ | .put _ _, _ | .forList _ _, _ | .forRange _ _, _
  | .scatter _ _ _ _ _, _ => moveOf (exec (fun _ _ => .error (.undefined "opcode")) bc i a)
  | _, _ => underflow

/-- The next instruction. -/
def move (bc : Bytecodes) (a : Activ (Regs σ)) : Result (Move σ) :=
  match bc.fetch a.pc with
  | some (i, pc) => execInstr host T bc i { a with pc := pc }
  | none => .error (.undefined "opcode")

omit [FloatOps] in
/-- `unwind_stack`, as far as the activation goes. -/
def unwind (why : Reason) (value : Var) (a : Activ (Regs σ)) : Result (Progress σ) := do
  match ← unwindFrame why value a.stack with
  | (.handler pc st, _) => return .next ⟨pc, st, a.frame⟩
  | (.bare st, label) =>
    if why = .exit then return .next ⟨label, st, a.frame⟩
    else return .leave why value ⟨a.pc, st, a.frame⟩

omit [FloatOps] in
/-- `raise_error`. -/
def raised (code : Var) (a : Activ (Regs σ)) : Result (Progress σ) := do
  if (← findHandlerRt code a.stack) || host.catches code a.frame.world.world then
    unwind .raise (.list (code::host.report code a.frame.world.world)) a
  else unwind .uncaught zero a

def advance (bc : Bytecodes) (a : Activ (Regs σ)) : Result (Progress σ) := do
  match ← move host T bc a with
  | .next b => return .next b
  | .raise code b => raised host code b
  | .unwind why value b => unwind why value b

/-- The activation gets from one state to another. -/
def Advances (bc : Bytecodes) : Activ (Regs σ) → Activ (Regs σ) → Prop :=
  Relation.ReflTransGen fun a b => advance host T bc a = .ok (.next b)

end Machine

end LambdaMoo.Run
