import LambdaMoo.Opcode

/-!
# Code generation

`generate_code` and everything below it. The generator emits one byte for
each operand whose width is not yet known and remembers a fixup for it; here
the fixup stands in the code list at its own position, so a label is the
position of its fixup. Once a vector is complete its widths are chosen and
`stmt_to_code` rewrites the code with operands of those widths.
-/

set_option autoImplicit false

namespace LambdaMoo

structure Bytecodes where
  numbytesLabel : ℕ
  numbytesLiteral : ℕ
  numbytesFork : ℕ
  numbytesVarName : ℕ
  numbytesStack : ℕ
  vector : List Byte
  size : ℕ
  maxStack : ℕ
  deriving DecidableEq, Repr

structure Program where
  mainVector : Bytecodes
  literals : List Var
  forkVectors : List Bytecodes
  deriving DecidableEq, Repr

namespace CodeGen

/-- The kinds of fixup other than `FIXUP_LABEL`. -/
inductive FixupKind where
  | literal | fork | varRef | stack
  deriving DecidableEq, Repr

/-- The five running counters that each fixup snapshots. -/
structure Counts where
  literals : ℕ
  forks : ℕ
  varRefs : ℕ
  labels : ℕ
  stackRefs : ℕ
  deriving DecidableEq, Repr

/-- A fixup of kind `FIXUP_LABEL`; only for these are the counters and the
link to another fixup ever read. -/
structure Label where
  value : ℕ
  prev : Counts
  next : Option ℕ
  deriving DecidableEq, Repr

/-- One emitted byte: a plain byte or the placeholder of a fixup. A plain byte
keeps the number given to `emit_byte`, which is stored modulo 256, and the
operand-stack depth at its emission. -/
inductive Cell where
  | byte (n depth : ℕ)
  | operand (kind : FixupKind) (value : ℕ)
  | label (l : Label)
  deriving DecidableEq, Repr

/-- A finished vector, with the code it was laid out from, which nothing reads. -/
structure Finished where
  bc : Bytecodes
  code : List Cell
  deriving DecidableEq, Repr

structure GState where
  totalVarRefs : ℕ
  literals : List Var
  forkVectors : List Finished
  deriving DecidableEq, Repr

structure Loop where
  id : Option ℕ
  topLabel : Label
  topStack : ℕ
  bottomLabel : Option ℕ
  bottomStack : ℕ
  deriving DecidableEq, Repr

structure State where
  maxLiteral : ℕ
  maxFork : ℕ
  maxVarRef : ℕ
  num : Counts
  code : List Cell
  curStack : ℕ
  maxStack : ℕ
  savedStack : Option ℕ
  loops : List Loop
  gstate : GState
  deriving DecidableEq, Repr

def initGstate : GState := ⟨0, [], []⟩

def initState (g : GState) : State where
  maxLiteral := 0
  maxFork := 0
  maxVarRef := 0
  num := ⟨0, 0, 0, 0, 0⟩
  code := []
  curStack := 0
  maxStack := 0
  savedStack := none
  loops := []
  gstate := g

def State.numBytes (s : State) : ℕ := s.code.length

def emitByte (b : ℕ) (s : State) : State := { s with code := s.code ++ [.byte b s.curStack] }

def emitOp (op : Opcode) (s : State) : State := emitByte op.toNat s

def emitExtendedByte (eop : ExtendedOpcode) (s : State) : State :=
  emitByte eop.toNat (emitOp .extended s)

def addFixup (kind : FixupKind) (value : ℕ) (s : State) : State :=
  { s with code := s.code ++ [.operand kind value] }

/-- The position of a literal in the table, which grows if it is new. -/
def internLiteral (v : Var) (literals : List Var) : ℕ × List Var :=
  let i := literals.findIdx (fun l => v.type == l.type && equality true v l)
  if i = literals.length then (i, literals ++ [v]) else (i, literals)

def addLiteral (v : Var) (s : State) : State :=
  let (i, literals) := internLiteral v s.gstate.literals
  let s := addFixup .literal i { s with gstate := { s.gstate with literals := literals } }
  { s with num := { s.num with literals := s.num.literals+1 }, maxLiteral := max s.maxLiteral i }

def addFork (b : Finished) (s : State) : State :=
  let i := s.gstate.forkVectors.length
  let s := addFixup .fork i
    { s with gstate := { s.gstate with forkVectors := s.gstate.forkVectors ++ [b] } }
  { s with num := { s.num with forks := s.num.forks+1 }, maxFork := max s.maxFork i }

def addVarRef (slot : ℕ) (s : State) : State :=
  let s := addFixup .varRef slot s
  { s with
    num := { s.num with varRefs := s.num.varRefs+1 }
    maxVarRef := max s.maxVarRef slot
    gstate := { s.gstate with totalVarRefs := s.gstate.totalVarRefs+1 } }

def addKnownLabel (l : Label) (s : State) : State :=
  { s with
    code := s.code ++ [.label l]
    num := { s.num with labels := s.num.labels+1 } }

def addLinkedLabel (next : Option ℕ) (s : State) : ℕ × State :=
  (s.numBytes, addKnownLabel ⟨0, s.num, next⟩ s)

def addLabel (s : State) : ℕ × State := addLinkedLabel none s

def addPseudoLabel (value : ℕ) (s : State) : State :=
  addKnownLabel ⟨value, ⟨0, 0, 0, 0, 0⟩, none⟩ s

def captureLabel (s : State) : Label := ⟨s.numBytes, s.num, none⟩

/-- The loop of `define_label` over a chain of linked labels; the chain is no
longer than the code. -/
def defineChain (value : ℕ) (prev : Counts) : ℕ → Option ℕ → List Cell → List Cell
  | 0, _, code => code
  | _+1, none, code => code
  | n+1, some k, code =>
    match code[k]? with
    | some (.label l) =>
      defineChain value prev n l.next (code.set k (.label { l with value := value, prev := prev }))
    | _ => code

def defineLabel (label : Option ℕ) (s : State) : State :=
  { s with code := defineChain s.numBytes s.num s.numBytes label s.code }

/-- A stack reference; `num_stacks` is not counted here. -/
def addStackRef (index : ℕ) (s : State) : State := addFixup .stack index s

def pushStack (n : ℕ) (s : State) : State :=
  { s with curStack := s.curStack+n, maxStack := max s.maxStack (s.curStack+n) }

def popStack (n : ℕ) (s : State) : State := { s with curStack := s.curStack-n }

def saveStackTop (s : State) : Option ℕ × State :=
  (s.savedStack, { s with savedStack := some (s.curStack-1) })

def restoreStackTop (old : Option ℕ) (s : State) : State := { s with savedStack := old }

def enterLoop (id : Option ℕ) (topLabel : Label) (topStack : ℕ) (bottomLabel : Option ℕ)
    (bottomStack : ℕ) (s : State) : State :=
  { s with loops := ⟨id, topLabel, topStack, bottomLabel, bottomStack⟩ :: s.loops }

/-- The head of the label chain of the loop that ends here. -/
def exitLoop (s : State) : Option ℕ × State :=
  ((s.loops.head?.bind (·.bottomLabel)), { s with loops := s.loops.tail })

def emitVarOp (isPut : Bool) (slot : ℕ) (s : State) : State :=
  if h : slot < numReadyVars then
    emitOp (if isPut then .put ⟨slot, h⟩ else .push ⟨slot, h⟩) s
  else addVarRef slot (emitOp (if isPut then .gPut else .gPush) s)

def emitEither (op : Opcode ⊕ ExtendedOpcode) (s : State) : State :=
  match op with
  | .inl op => emitOp op s
  | .inr eop => emitExtendedByte eop s

/-- A small integer is an opcode of its own; any other value is a literal. -/
def emitVar (v : Var) (s : State) : State :=
  match v with
  | .int n =>
    if inOptimNumRange n then emitOp (optimNumToOpcode n) s else addLiteral v (emitOp .imm s)
  | _ => addLiteral v (emitOp .imm s)

/-- `add_pseudo_label` or `add_label` for each target of a scattering
assignment, with the labels of the default expressions in order. -/
def scatterTargets : Scatter → State → List ℕ × State
  | .nil, s => ([], s)
  | .cons kind id expr next, s =>
    let s := addVarRef id s
    match kind, expr with
    | .optional, .some _ =>
      let (label, s) := addLabel s
      let (labels, s) := scatterTargets next s
      (label::labels, s)
    | .optional, .none => scatterTargets next (addPseudoLabel 1 s)
    | _, _ => scatterTargets next (addPseudoLabel 0 s)

def Scatter.nreq : Scatter → ℕ
  | .nil => 0
  | .cons kind _ _ next => (if kind = .required then 1 else 0)+Scatter.nreq next

/-- The position of the last rest target, counted from `nargs`, if there is one. -/
def Scatter.restFrom : ℕ → Scatter → Option ℕ
  | _, .nil => none
  | nargs, .cons kind _ _ next =>
    (Scatter.restFrom (nargs+1) next).or (if kind = .rest then some (nargs+1) else none)

def Scatter.rest (sc : Scatter) : ℕ := (Scatter.restFrom 0 sc).getD (sc.length+1)

/-- The stores after the right-hand side of an assignment, from the outermost
index or range of the left-hand side inwards. -/
def storeLvalue : Expr → State → Result State
  | .range base _ _, s => storeLvalue base (popStack 3 (emitExtendedByte .rangeset s))
  | .index base _, s => storeLvalue base (popStack 2 (emitOp .indexset s))
  | .id slot, s => .ok (emitVarOp true slot s)
  | .prop _ _, s => .ok (popStack 2 (emitOp .putProp s))
  | _, _ => .error (.panic "Bad lvalue in GENERATE_EXPR()")

def Expr.isIndexed : Expr → Bool
  | .range _ _ _ | .index _ _ => true
  | _ => false

def ArgKind.firstOp : ArgKind → Opcode
  | .normal => .makeSingletonList
  | .splice => .checkListForSplice

def ArgKind.nextOp : ArgKind → Opcode
  | .normal => .listAddTail
  | .splice => .listAppend

/-- `ANY` is compiled to a zero in the place of the list of codes. -/
def codesOr (codes : ArgList) (generate : State → Result State) (s : State) : Result State :=
  match codes with
  | .nil => .ok (pushStack 1 (emitOp (optimNumToOpcode 0) s))
  | .cons _ _ _ => generate s

mutual
def generateExpr : Expr → State → Result State
  | .var v, s => .ok (pushStack 1 (emitVar v s))
  | .id slot, s => .ok (pushStack 1 (emitVarOp false slot s))
  | .and lhs rhs, s => do
    let s ← generateExpr lhs s
    let (endLabel, s) := addLabel (emitOp .and s)
    let s ← generateExpr rhs (popStack 1 s)
    return defineLabel (some endLabel) s
  | .or lhs rhs, s => do
    let s ← generateExpr lhs s
    let (endLabel, s) := addLabel (emitOp .or s)
    let s ← generateExpr rhs (popStack 1 s)
    return defineLabel (some endLabel) s
  | .unary op arg, s => do
    let s ← generateExpr arg s
    return emitEither op.opcode s
  | .binary op lhs rhs, s => do
    let s ← generateExpr lhs s
    let s ← generateExpr rhs s
    return popStack 1 (emitEither op.opcode s)
  | .prop obj name, s => do
    let s ← generateExpr obj s
    let s ← generateExpr name s
    return popStack 1 (emitOp .getProp s)
  | .index base index, s => do
    let s ← generateExpr base s
    let (old, s) := saveStackTop s
    let s ← generateExpr index s
    return popStack 1 (emitOp .ref (restoreStackTop old s))
  | .range base lo hi, s => do
    let s ← generateExpr base s
    let (old, s) := saveStackTop s
    let s ← generateExpr lo s
    let s ← generateExpr hi s
    return popStack 2 (emitOp .rangeRef (restoreStackTop old s))
  | .length, s =>
    match s.savedStack with
    | some saved => .ok (pushStack 1 (addStackRef saved (emitExtendedByte .length s)))
    | none => .error (.panic "Missing saved stack for `$' in GENERATE_EXPR()")
  | .list args, s => generateArgList args s
  | .call func args, s => do
    let s ← generateArgList args s
    return emitByte func (emitOp .biFuncCall s)
  | .verb obj name args, s => do
    let s ← generateExpr obj s
    let s ← generateExpr name s
    let s ← generateArgList args s
    return popStack 2 (emitOp .callVerb s)
  | .cond condition consequent alternate, s => do
    let s ← generateExpr condition s
    let (elseLabel, s) := addLabel (emitOp .ifQues s)
    let s ← generateExpr consequent (popStack 1 s)
    let (endLabel, s) := addLabel (emitOp .jump s)
    let s ← generateExpr alternate (defineLabel (some elseLabel) (popStack 1 s))
    return defineLabel (some endLabel) s
  | .asgn (.scatter sc) rhs, s => do
    let s ← generateExpr rhs s
    let s := emitExtendedByte .scatter s
    let s := emitByte (Scatter.rest sc) (emitByte (Scatter.nreq sc) (emitByte sc.length s))
    let (labels, s) := scatterTargets sc s
    let (done, s) := addLabel s
    let s ← generateDefaults sc labels s
    return defineLabel (some done) s
  | .asgn lhs rhs, s => do
    let s ← pushLvalue lhs false s
    let s ← generateExpr rhs s
    let s := if Expr.isIndexed lhs then emitOp .putTemp s else s
    let s ← storeLvalue lhs s
    return if Expr.isIndexed lhs then emitOp .pushTemp (emitOp .pop s) else s
  | .catch body codes default, s => do
    let s ← codesOr codes (generateArgList codes) s
    let (handlerLabel, s) := addLabel (emitExtendedByte .pushLabel s)
    let s := pushStack 1 (emitExtendedByte .catch (pushStack 1 s))
    let s ← generateExpr body s
    let (endLabel, s) := addLabel (emitExtendedByte .endCatch s)
    let s := defineLabel (some handlerLabel) (popStack 3 s)
    let s ← generateDefault default s
    return defineLabel (some endLabel) s
  | .scatter _, _ => .error (.panic "Can't happen in GENERATE_EXPR()")
termination_by structural e => e
def generateArgList : ArgList → State → Result State
  | .nil, s => .ok (pushStack 1 (emitOp .makeEmptyList s))
  | .cons kind expr next, s => do
    let s ← generateExpr expr s
    generateArgs next (emitOp (ArgKind.firstOp kind) s)
termination_by structural a => a
def generateArgs : ArgList → State → Result State
  | .nil, s => .ok s
  | .cons kind expr next, s => do
    let s ← generateExpr expr s
    generateArgs next (popStack 1 (emitOp (ArgKind.nextOp kind) s))
termination_by structural a => a
def pushLvalue : Expr → Bool → State → Result State
  | .range base lo hi, _, s => do
    let s ← pushLvalue base true s
    let (old, s) := saveStackTop s
    let s ← generateExpr lo s
    let s ← generateExpr hi s
    return restoreStackTop old s
  | .index base index, indexedAbove, s => do
    let s ← pushLvalue base true s
    let (old, s) := saveStackTop s
    let s ← generateExpr index s
    let s := restoreStackTop old s
    return if indexedAbove then pushStack 1 (emitOp .pushRef s) else s
  | .id slot, indexedAbove, s =>
    .ok (if indexedAbove then pushStack 1 (emitVarOp false slot s) else s)
  | .prop obj name, indexedAbove, s => do
    let s ← generateExpr obj s
    let s ← generateExpr name s
    return if indexedAbove then pushStack 1 (emitOp .pushGetProp s) else s
  | _, _, _ => .error (.panic "Bad lvalue in PUSH_LVALUE()")
termination_by structural e => e
/-- The default expressions of a scattering assignment, each at its label. -/
def generateDefaults : Scatter → List ℕ → State → Result State
  | .nil, _, s => .ok s
  | .cons .optional id (.some expr) next, label::labels, s => do
    let s ← generateExpr expr (defineLabel (some label) s)
    generateDefaults next labels (popStack 1 (emitOp .pop (emitVarOp true id s)))
  | .cons _ _ _ next, labels, s => generateDefaults next labels s
termination_by structural sc => sc
/-- The handler of a catch expression: the default, or the code of the exception. -/
def generateDefault : OptExpr → State → Result State
  | .some expr, s => generateExpr expr (popStack 1 (emitOp .pop s))
  | .none, s => .ok (emitOp .ref (emitOp (optimNumToOpcode 1) s))
termination_by structural e => e
end

def generateCodes (codes : ArgList) : State → Result State :=
  codesOr codes (generateArgList codes)

def refSize (rmax : ℕ) : ℕ := if rmax ≤ 256 then 1 else if rmax ≤ 256*256 then 2 else 4

/-- The bytes the last loop of `stmt_to_code` stores for a value of a given size. -/
def storeValue (size value : ℕ) : List Byte :=
  match size with
  | 4 => [UInt8.ofNat (value >>> 24), UInt8.ofNat (value >>> 16), UInt8.ofNat (value >>> 8),
      UInt8.ofNat value]
  | 2 => [UInt8.ofNat (value >>> 8), UInt8.ofNat value]
  | _ => [UInt8.ofNat value]

def Bytecodes.fixupSize (bc : Bytecodes) : FixupKind → ℕ
  | .literal => bc.numbytesLiteral
  | .fork => bc.numbytesFork
  | .varRef => bc.numbytesVarName
  | .stack => bc.numbytesStack

/-- A label is moved by the extra bytes of every operand counted before it. -/
def Bytecodes.labelValue (bc : Bytecodes) (l : Label) : ℕ :=
  l.value+l.prev.literals*(bc.numbytesLiteral-1)+l.prev.forks*(bc.numbytesFork-1)
    +l.prev.varRefs*(bc.numbytesVarName-1)+l.prev.labels*(bc.numbytesLabel-1)
    +l.prev.stackRefs*(bc.numbytesStack-1)

def Bytecodes.storeCell (bc : Bytecodes) : Cell → List Byte
  | .byte n _ => [UInt8.ofNat n]
  | .operand kind value => storeValue (Bytecodes.fixupSize bc kind) value
  | .label l => storeValue bc.numbytesLabel (Bytecodes.labelValue bc l)

/-- The widths and the size that `stmt_to_code` chooses for a finished state;
the vector is still to be filled in. -/
def chooseWidths (s : State) : Bytecodes :=
  let literal := refSize (max s.maxLiteral s.gstate.literals.length)
  let fork := refSize (max s.maxFork s.gstate.forkVectors.length)
  let varName := refSize (max s.maxVarRef s.gstate.totalVarRefs)
  let size := (s.numBytes+(literal-1)*s.num.literals+(fork-1)*s.num.forks
    +(varName-1)*s.num.varRefs)%2^32
  let label := if size ≤ 256 then 1 else if (size+s.num.labels)%2^32 ≤ 256*256 then 2 else 4
  { numbytesLabel := label
    numbytesLiteral := literal
    numbytesFork := fork
    numbytesVarName := varName
    numbytesStack := refSize s.maxStack
    vector := []
    size := (size+(label-1)*s.num.labels)%2^32
    maxStack := s.maxStack }

/-- The bytes that the last loop of `stmt_to_code` writes, one cell after the other. -/
def writtenBytes (s : State) : List Byte := s.code.flatMap (Bytecodes.storeCell (chooseWidths s))

/-- The second half of `stmt_to_code`. The vector has room for `size` bytes. -/
def layout (s : State) : Result Bytecodes :=
  if (writtenBytes s).length ≤ (chooseWidths s).size then
    .ok { chooseWidths s with vector := writtenBytes s }
  else .error (.undefined "write past the end of bc.vector in STMT_TO_CODE()")

def finishVector (s : State) : Result (Finished × GState) :=
  let s := emitOp .done s
  if s.curStack ≠ 0 then .error (.panic "Stack not entirely popped in STMT_TO_CODE()")
  else if s.savedStack ≠ none then
    .error (.panic "Still a saved stack index in STMT_TO_CODE()")
  else do
    let bc ← layout s
    return (⟨bc, s.code⟩, s.gstate)

/-- The loop a `break` or `continue` leaves, counted from the innermost one. -/
def findLoop (exit : Option ℕ) (loops : List Loop) : Result ℕ :=
  match exit with
  | none =>
    if loops.isEmpty then .error (.panic "No loop to exit, in CODE_GEN!") else .ok 0
  | some id =>
    match loops.findIdx? (fun l => l.id == some id) with
    | some i => .ok i
    | none => .error (.panic "Can't find loop in CONTINUE_LOOP!")

def emitExit (exit : Option ℕ) (s : State) : State :=
  match exit with
  | none => emitExtendedByte .exit s
  | some id => addVarRef id (emitExtendedByte .exitId s)

def generateContinue (exit : Option ℕ) (s : State) : Result State := do
  let s := emitExit exit s
  let i ← findLoop exit s.loops
  match s.loops[i]? with
  | some loop => return addKnownLabel loop.topLabel (addStackRef loop.topStack s)
  | none => throw (.panic "No loop to exit, in CODE_GEN!")

def generateBreak (exit : Option ℕ) (s : State) : Result State := do
  let s := emitExit exit s
  let i ← findLoop exit s.loops
  match s.loops[i]? with
  | some loop =>
    let (label, s) := addLinkedLabel loop.bottomLabel (addStackRef loop.bottomStack s)
    return { s with loops := s.loops.set i { loop with bottomLabel := some label } }
  | none => throw (.panic "No loop to exit, in CODE_GEN!")

/-- The codes and the handler label of each arm of a `try`-`except` statement. -/
def pushHandlers : ExceptArms → State → Result (List ℕ × State)
  | .nil, s => .ok ([], s)
  | .cons _ codes _ next, s => do
    let s ← generateCodes codes s
    let (label, s) := addLabel (emitExtendedByte .pushLabel s)
    let (labels, s) ← pushHandlers next (pushStack 1 s)
    return (label::labels, s)

def emitLoopTest (id : Option ℕ) (s : State) : State :=
  match id with
  | none => emitOp .while s
  | some id => addVarRef id (emitExtendedByte .whileId s)

def addForkId (id : Option ℕ) (s : State) : State :=
  match id with
  | none => s
  | some id => addVarRef id s

/-- The store of the exception into the variable of an arm. -/
def emitArmId (id : Option ℕ) (s : State) : State :=
  match id with
  | none => s
  | some id => emitVarOp true id s

mutual
def generateStmt : Stmt → State → Result State
  | .cond arms otherwise, s => do
    let (endLabel, s) ← generateArms arms .if none s
    let s ← generateStmts otherwise s
    return defineLabel endLabel s
  | .list id expr body, s => do
    let s ← generateExpr expr s
    let s := pushStack 1 (emitOp (optimNumToOpcode 1) s)
    let loopTop := captureLabel s
    let (endLabel, s) := addLabel (addVarRef id (emitOp .forList s))
    let s := enterLoop (some id) loopTop s.curStack (some endLabel) (s.curStack-2) s
    let s ← generateStmts body s
    let (endLabel, s) := exitLoop s
    let s := addKnownLabel loopTop (emitOp .jump s)
    return popStack 2 (defineLabel endLabel s)
  | .range id lo hi body, s => do
    let s ← generateExpr lo s
    let s ← generateExpr hi s
    let loopTop := captureLabel s
    let (endLabel, s) := addLabel (addVarRef id (emitOp .forRange s))
    let s := enterLoop (some id) loopTop s.curStack (some endLabel) (s.curStack-2) s
    let s ← generateStmts body s
    let (endLabel, s) := exitLoop s
    let s := addKnownLabel loopTop (emitOp .jump s)
    return popStack 2 (defineLabel endLabel s)
  | .while id condition body, s => do
    let loopTop := captureLabel s
    let s ← generateExpr condition s
    let (endLabel, s) := addLabel (emitLoopTest id s)
    let s := popStack 1 s
    let s := enterLoop id loopTop s.curStack (some endLabel) s.curStack s
    let s ← generateStmts body s
    let (endLabel, s) := exitLoop s
    let s := addKnownLabel loopTop (emitOp .jump s)
    return defineLabel endLabel s
  | .fork id time body, s => do
    let s ← generateExpr time s
    let s := emitOp (if id.isSome then .forkWithId else .fork) s
    let forked ← generateStmts body (initState s.gstate)
    let (vector, gstate) ← finishVector forked
    let s := addFork vector { s with gstate := gstate }
    return popStack 1 (addForkId id s)
  | .expr expr, s => do
    let s ← generateExpr expr s
    return popStack 1 (emitOp .pop s)
  | .return (some expr), s => do
    let s ← generateExpr expr s
    return popStack 1 (emitOp .return s)
  | .return none, s => .ok (emitOp .return0 s)
  | .tryExcept body excepts, s => do
    let (labels, s) ← pushHandlers excepts s
    let s := emitByte excepts.length (emitExtendedByte .tryExcept s)
    let s ← generateStmts body (pushStack 1 s)
    let (endLabel, s) := addLabel (emitExtendedByte .endExcept s)
    let (endLabel, s) ← generateExcepts excepts labels (some endLabel)
      (popStack (2*excepts.length+1) s)
    return defineLabel endLabel s
  | .tryFinally body handler, s => do
    let (handlerLabel, s) := addLabel (emitExtendedByte .tryFinally s)
    let s ← generateStmts body (pushStack 1 s)
    let s := popStack 1 (emitExtendedByte .endFinally s)
    let s ← generateStmts handler (pushStack 2 (defineLabel (some handlerLabel) s))
    return popStack 2 (emitExtendedByte .continue s)
  | .break exit, s => generateBreak exit s
  | .continue exit, s => generateContinue exit s
termination_by structural st => st
def generateStmts : Stmts → State → Result State
  | .nil, s => .ok s
  | .cons stmt next, s => do
    let s ← generateStmt stmt s
    generateStmts next s
termination_by structural ss => ss
def generateArms : CondArms → Opcode → Option ℕ → State → Result (Option ℕ × State)
  | .nil, _, endLabel, s => .ok (endLabel, s)
  | .cons condition stmt next, ifOp, endLabel, s => do
    let s ← generateExpr condition s
    let (elseLabel, s) := addLabel (emitOp ifOp s)
    let s ← generateStmts stmt (popStack 1 s)
    let (endLabel, s) := addLinkedLabel endLabel (emitOp .jump s)
    generateArms next .eif (some endLabel) (defineLabel (some elseLabel) s)
termination_by structural arms => arms
def generateExcepts : ExceptArms → List ℕ → Option ℕ → State →
    Result (Option ℕ × State)
  | .nil, _, endLabel, s => .ok (endLabel, s)
  | .cons id _ stmt next, labels, endLabel, s => do
    let s := emitArmId id (pushStack 1 (defineLabel labels.head? s))
    let s ← generateStmts stmt (popStack 1 (emitOp .pop s))
    match next with
    | .nil => return (endLabel, s)
    | .cons _ _ _ _ =>
      let (endLabel, s) := addLinkedLabel endLabel (emitOp .jump s)
      generateExcepts next labels.tail (some endLabel) s
termination_by structural arms => arms
end

def stmtToCode (ss : Stmts) (g : GState) : Result (Finished × GState) := do
  finishVector (← generateStmts ss (initState g))

def generateCode (ss : Stmts) : Result Program := do
  let (main, g) ← stmtToCode ss initGstate
  return ⟨main.bc, g.literals, g.forkVectors.map (·.bc)⟩

end CodeGen
end LambdaMoo
