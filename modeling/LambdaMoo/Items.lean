import LambdaMoo.CodeGen

/-!
# The code as the tree alone determines it

`itemsExpr` and `itemsStmts` list what the generator emits, cell by cell,
without the targets of labels and the positions of literals in their table.
`need` is how far the operand stack grows above the depth at which the code
starts.
-/

set_option autoImplicit false

namespace LambdaMoo.CodeGen

/-- One emitted cell; `forked` marks a cell of the vector of a fork statement. -/
inductive Item where
  | byte (n : ℕ)
  | literal (v : Var)
  | fork
  | varRef (slot : ℕ)
  | label
  | stack (index : ℕ)
  | forked (i : Item)
  deriving DecidableEq, Repr

def Item.op (o : Opcode) : Item := .byte o.toNat

def extendedItems (eop : ExtendedOpcode) : List Item := [.op .extended, .byte eop.toNat]

def eitherItems : Opcode ⊕ ExtendedOpcode → List Item
  | .inl o => [.op o]
  | .inr eop => extendedItems eop

def varOpItems (isPut : Bool) (slot : ℕ) : List Item :=
  if h : slot < numReadyVars then
    [.op (if isPut then .put ⟨slot, h⟩ else .push ⟨slot, h⟩)]
  else [.op (if isPut then .gPut else .gPush), .varRef slot]

def varItems (v : Var) : List Item :=
  match v with
  | .int n => if inOptimNumRange n then [.op (optimNumToOpcode n)] else [.op .imm, .literal v]
  | _ => [.op .imm, .literal v]

/-- The operands `push_lvalue` leaves on the stack. -/
def lvalueDepth : Expr → Bool → ℕ
  | .range base _ _, _ => lvalueDepth base true+2
  | .index base _, above => lvalueDepth base true+1+above.toNat
  | .id _, above => above.toNat
  | .prop _ _, above => 2+above.toNat
  | _, _ => 0

def storeItems : Expr → List Item
  | .range base _ _ => extendedItems .rangeset++storeItems base
  | .index base _ => .op .indexset::storeItems base
  | .id slot => varOpItems true slot
  | .prop _ _ => [.op .putProp]
  | _ => []

def targetItems : Scatter → List Item
  | .nil => []
  | .cons _ id _ next => .varRef id::.label::targetItems next

def codesOrItems (codes : ArgList) (items : List Item) : List Item :=
  match codes with
  | .nil => [.op (optimNumToOpcode 0)]
  | .cons _ _ _ => items

mutual
def itemsExpr (d : ℕ) (saved : Option ℕ) : Expr → List Item
  | .var v => varItems v
  | .id slot => varOpItems false slot
  | .and lhs rhs => itemsExpr d saved lhs++[.op .and, .label]++itemsExpr d saved rhs
  | .or lhs rhs => itemsExpr d saved lhs++[.op .or, .label]++itemsExpr d saved rhs
  | .unary op arg => itemsExpr d saved arg++eitherItems op.opcode
  | .binary op lhs rhs =>
    itemsExpr d saved lhs++itemsExpr (d+1) saved rhs++eitherItems op.opcode
  | .prop obj name => itemsExpr d saved obj++itemsExpr (d+1) saved name++[.op .getProp]
  | .index base index => itemsExpr d saved base++itemsExpr (d+1) (some d) index++[.op .ref]
  | .range base lo hi =>
    itemsExpr d saved base++itemsExpr (d+1) (some d) lo++itemsExpr (d+2) (some d) hi
      ++[.op .rangeRef]
  | .length => extendedItems .length++[.stack (saved.getD 0)]
  | .list args => itemsArgList d saved args
  | .call func args => itemsArgList d saved args++[.op .biFuncCall, .byte func]
  | .verb obj name args =>
    itemsExpr d saved obj++itemsExpr (d+1) saved name++itemsArgList (d+2) saved args
      ++[.op .callVerb]
  | .cond condition consequent alternate =>
    itemsExpr d saved condition++[.op .ifQues, .label]++itemsExpr d saved consequent
      ++[.op .jump, .label]++itemsExpr d saved alternate
  | .asgn (.scatter sc) rhs =>
    itemsExpr d saved rhs++extendedItems .scatter
      ++[.byte sc.length, .byte (Scatter.nreq sc), .byte (Scatter.rest sc)]
      ++targetItems sc++[.label]++itemsDefaults (d+1) saved sc
  | .asgn lhs rhs =>
    itemsLvalue d saved lhs false++itemsExpr (d+lvalueDepth lhs false) saved rhs
      ++(if Expr.isIndexed lhs then [.op .putTemp] else [])++storeItems lhs
      ++(if Expr.isIndexed lhs then [.op .pop, .op .pushTemp] else [])
  | .catch body codes default =>
    codesOrItems codes (itemsArgList d saved codes)++extendedItems .pushLabel++[.label]
      ++extendedItems .catch++itemsExpr (d+3) saved body++extendedItems .endCatch++[.label]
      ++itemsDefault d saved default
  | .scatter _ => []
termination_by structural e => e
def itemsArgList (d : ℕ) (saved : Option ℕ) : ArgList → List Item
  | .nil => [.op .makeEmptyList]
  | .cons kind expr next =>
    itemsExpr d saved expr
      ++[.op (ArgKind.firstOp kind)]
      ++itemsArgs d saved next
termination_by structural a => a
def itemsArgs (d : ℕ) (saved : Option ℕ) : ArgList → List Item
  | .nil => []
  | .cons kind expr next =>
    itemsExpr (d+1) saved expr
      ++[.op (ArgKind.nextOp kind)]
      ++itemsArgs d saved next
termination_by structural a => a
def itemsLvalue (d : ℕ) (saved : Option ℕ) : Expr → Bool → List Item
  | .range base lo hi, _ =>
    let k := d+lvalueDepth base true
    itemsLvalue d saved base true++itemsExpr k (some (k-1)) lo++itemsExpr (k+1) (some (k-1)) hi
  | .index base index, above =>
    let k := d+lvalueDepth base true
    itemsLvalue d saved base true++itemsExpr k (some (k-1)) index
      ++(if above then [.op .pushRef] else [])
  | .id slot, above => if above then varOpItems false slot else []
  | .prop obj name, above =>
    itemsExpr d saved obj++itemsExpr (d+1) saved name
      ++(if above then [.op .pushGetProp] else [])
  | _, _ => []
termination_by structural e => e
def itemsDefaults (d : ℕ) (saved : Option ℕ) : Scatter → List Item
  | .nil => []
  | .cons .optional id (.some expr) next =>
    itemsExpr d saved expr++varOpItems true id++[.op .pop]++itemsDefaults d saved next
  | .cons _ _ _ next => itemsDefaults d saved next
termination_by structural sc => sc
def itemsDefault (d : ℕ) (saved : Option ℕ) : OptExpr → List Item
  | .some expr => .op .pop::itemsExpr d saved expr
  | .none => [.op (optimNumToOpcode 1), .op .ref]
termination_by structural e => e
end

/-- What `break` and `continue` use of a loop around them. -/
structure Frame where
  id : Option ℕ
  topStack : ℕ
  bottomStack : ℕ
  deriving DecidableEq, Repr

def Loop.frame (l : Loop) : Frame := ⟨l.id, l.topStack, l.bottomStack⟩

def findFrame (exit : Option ℕ) (frames : List Frame) : Option Frame :=
  match exit with
  | none => frames.head?
  | some id => frames.find? (fun f => f.id == some id)

def exitItems (exit : Option ℕ) : List Item :=
  match exit with
  | none => extendedItems .exit
  | some id => extendedItems .exitId++[.varRef id]

def loopTestItems (id : Option ℕ) : List Item :=
  match id with
  | none => [.op .while]
  | some id => extendedItems .whileId++[.varRef id]

def forkIdItems (id : Option ℕ) : List Item :=
  match id with
  | none => []
  | some id => [.varRef id]

def armIdItems (id : Option ℕ) : List Item :=
  match id with
  | none => []
  | some id => varOpItems true id

def handlerItems (d : ℕ) : ExceptArms → List Item
  | .nil => []
  | .cons _ codes _ next =>
    codesOrItems codes (itemsArgList d none codes)++extendedItems .pushLabel++[.label]
      ++handlerItems (d+2) next

mutual
def itemsStmt (d : ℕ) (frames : List Frame) : Stmt → List Item
  | .cond arms otherwise => itemsArms d frames .if arms++itemsStmts d frames otherwise
  | .list id expr body =>
    itemsExpr d none expr++[.op (optimNumToOpcode 1), .op .forList, .varRef id, .label]
      ++itemsStmts (d+2) (⟨some id, d+2, d⟩::frames) body++[.op .jump, .label]
  | .range id lo hi body =>
    itemsExpr d none lo++itemsExpr (d+1) none hi++[.op .forRange, .varRef id, .label]
      ++itemsStmts (d+2) (⟨some id, d+2, d⟩::frames) body++[.op .jump, .label]
  | .while id condition body =>
    itemsExpr d none condition++loopTestItems id++[.label]++itemsStmts d (⟨id, d, d⟩::frames) body++[.op .jump, .label]
  | .fork id time body =>
    itemsExpr d none time++[.op (if id.isSome then .forkWithId else .fork)]
      ++(itemsStmts 0 [] body++[Item.op .done]).map Item.forked++[.fork]
      ++forkIdItems id
  | .expr expr => itemsExpr d none expr++[.op .pop]
  | .return (some expr) => itemsExpr d none expr++[.op .return]
  | .return none => [.op .return0]
  | .tryExcept body excepts =>
    handlerItems d excepts++extendedItems .tryExcept++[.byte excepts.length]
      ++itemsStmts (d+2*excepts.length+1) frames body++extendedItems .endExcept++[.label]
      ++itemsExcepts d frames excepts
  | .tryFinally body handler =>
    extendedItems .tryFinally++[.label]++itemsStmts (d+1) frames body++extendedItems .endFinally
      ++itemsStmts (d+2) frames handler++extendedItems .continue
  | .break exit =>
    exitItems exit++[.stack (((findFrame exit frames).map (·.bottomStack)).getD 0), .label]
  | .continue exit =>
    exitItems exit++[.stack (((findFrame exit frames).map (·.topStack)).getD 0), .label]
termination_by structural st => st
def itemsStmts (d : ℕ) (frames : List Frame) : Stmts → List Item
  | .nil => []
  | .cons stmt next => itemsStmt d frames stmt++itemsStmts d frames next
termination_by structural ss => ss
def itemsArms (d : ℕ) (frames : List Frame) : Opcode → CondArms → List Item
  | _, .nil => []
  | ifOp, .cons condition stmt next =>
    itemsExpr d none condition++[.op ifOp, .label]++itemsStmts d frames stmt
      ++[.op .jump, .label]++itemsArms d frames .eif next
termination_by structural _ arms => arms
def itemsExcepts (d : ℕ) (frames : List Frame) : ExceptArms → List Item
  | .nil => []
  | .cons id _ stmt next =>
    armIdItems id++[.op .pop]++itemsStmts d frames stmt
      ++(match next with
        | .nil => []
        | .cons _ _ _ _ => [.op .jump, .label])
      ++itemsExcepts d frames next
termination_by structural arms => arms
end

mutual
def needExpr : Expr → ℕ
  | .var _ | .id _ | .length => 1
  | .and lhs rhs | .or lhs rhs => max (needExpr lhs) (needExpr rhs)
  | .unary _ arg => needExpr arg
  | .binary _ lhs rhs | .prop lhs rhs | .index lhs rhs => max (needExpr lhs) (needExpr rhs+1)
  | .range base lo hi => max (needExpr base) (max (needExpr lo+1) (needExpr hi+2))
  | .list args | .call _ args => needArgList args
  | .verb obj name args => max (needExpr obj) (max (needExpr name+1) (needArgList args+2))
  | .cond condition consequent alternate =>
    max (needExpr condition) (max (needExpr consequent) (needExpr alternate))
  | .asgn (.scatter sc) rhs => max (needExpr rhs) (needDefaults sc+1)
  | .asgn lhs rhs => max (needLvalue lhs false) (needExpr rhs+lvalueDepth lhs false)
  | .catch body codes default =>
    max (needArgList codes) (max (needExpr body+3) (needDefault default))
  | .scatter _ => 0
termination_by structural e => e
def needArgList : ArgList → ℕ
  | .nil => 1
  | .cons _ expr next => max (needExpr expr) (needArgs next)
termination_by structural a => a
def needArgs : ArgList → ℕ
  | .nil => 0
  | .cons _ expr next => max (needExpr expr+1) (needArgs next)
termination_by structural a => a
def needLvalue : Expr → Bool → ℕ
  | .range base lo hi, _ =>
    max (needLvalue base true)
      (max (needExpr lo+lvalueDepth base true) (needExpr hi+lvalueDepth base true+1))
  | .index base index, above =>
    max (needLvalue base true)
      (max (needExpr index+lvalueDepth base true) (lvalueDepth base true+1+above.toNat))
  | .id _, above => above.toNat
  | .prop obj name, above => max (needExpr obj) (max (needExpr name+1) (2+above.toNat))
  | _, _ => 0
termination_by structural e => e
def needDefaults : Scatter → ℕ
  | .nil => 0
  | .cons .optional _ (.some expr) next => max (needExpr expr) (needDefaults next)
  | .cons _ _ _ next => needDefaults next
termination_by structural sc => sc
def needDefault : OptExpr → ℕ
  | .some expr => needExpr expr
  | .none => 0
termination_by structural e => e
end

def needHandlers : ExceptArms → ℕ
  | .nil => 0
  | .cons _ codes _ next => max (needArgList codes) (needHandlers next+2)

mutual
/-- The greatest depth that the code of a statement reaches above its start;
the body of a fork has a stack of its own. -/
def needStmt : Stmt → ℕ
  | .cond arms otherwise => max (needArms arms) (needStmts otherwise)
  | .list _ expr body => max (needExpr expr) (needStmts body+2)
  | .range _ lo hi body => max (needExpr lo) (max (needExpr hi+1) (needStmts body+2))
  | .while _ condition body => max (needExpr condition) (needStmts body)
  | .fork _ time _ => needExpr time
  | .expr expr => needExpr expr
  | .return (some expr) => needExpr expr
  | .return none | .break _ | .continue _ => 0
  | .tryExcept body excepts =>
    max (needHandlers excepts) (max (needStmts body+2*excepts.length+1) (needExcepts excepts))
  | .tryFinally body handler => max (needStmts body+1) (needStmts handler+2)
termination_by structural st => st
def needStmts : Stmts → ℕ
  | .nil => 0
  | .cons stmt next => max (needStmt stmt) (needStmts next)
termination_by structural ss => ss
def needArms : CondArms → ℕ
  | .nil => 0
  | .cons condition stmt next =>
    max (needExpr condition) (max (needStmts stmt) (needArms next))
termination_by structural arms => arms
def needExcepts : ExceptArms → ℕ
  | .nil => 0
  | .cons _ _ stmt next => max 1 (max (needStmts stmt) (needExcepts next))
termination_by structural arms => arms
end

end LambdaMoo.CodeGen
