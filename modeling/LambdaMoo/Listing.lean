import LambdaMoo.Instr
import LambdaMoo.Items

/-!
# Code of a tree

`CodeExpr` and `CodeStmt` say that the instructions of a vector between two
offsets are the code of a tree: what each instruction is, with its operands
decoded, where its labels point and at which depth of the operand stack the
generator emitted it.
-/

set_option autoImplicit false

namespace LambdaMoo.CodeGen

/-- What the vectors of a program share. -/
structure Tables where
  literals : List Var
  forkVectors : List Finished

/-- A vector with the depths at which its bytes were emitted. -/
structure Vec where
  bc : Bytecodes
  depth : ℕ → Option ℕ

def Vec.instr (v : Vec) (d : ℕ) (i : Instr) (a a' : ℕ) : Prop :=
  v.bc.fetch a = some (i, a') ∧ v.depth a = some d

/-- `PUT_n` and `PUSH_n` for the first variables, else an operand. -/
def isReady (slot : ℕ) : Bool := slot < numReadyVars

def CodeVar (T : Tables) (v : Vec) (d : ℕ) (x : Var) (a a' : ℕ) : Prop :=
  (∃ n, x = .int n ∧ inOptimNumRange n = true ∧ v.instr d (.num n) a a') ∨
  (∀ n, x = .int n → inOptimNumRange n = false) ∧
    ∃ slot, T.literals[slot]? = some x ∧ v.instr d (.imm slot) a a'

def CodeStore (v : Vec) : ℕ → Expr → ℕ → ℕ → Prop
  | k, .range base _ _, a, a' => ∃ b, v.instr k .rangeset a b ∧ CodeStore v (k-3) base b a'
  | k, .index base _, a, a' => ∃ b, v.instr k .indexset a b ∧ CodeStore v (k-2) base b a'
  | k, .id slot, a, a' => v.instr k (.put (isReady slot) slot) a a'
  | k, .prop _ _, a, a' => v.instr k .putProp a a'
  | _, _, _, _ => False

/-- The end of an assignment, after its right-hand side. -/
def CodeStoreRhs (v : Vec) (d : ℕ) (lhs : Expr) (a a' : ℕ) : Prop :=
  let k := d+lvalueDepth lhs false+1
  if Expr.isIndexed lhs then
    ∃ b c x, v.instr k .putTemp a b ∧ CodeStore v k lhs b c ∧ v.instr (d+1) .pop c x ∧
      v.instr (d+1) .pushTemp x a'
  else CodeStore v k lhs a a'

def firstInstr : ArgKind → Instr
  | .normal => .makeSingletonList
  | .splice => .checkListForSplice

def nextInstr : ArgKind → Instr
  | .normal => .listAddTail
  | .splice => .listAppend

/-- The optional instruction after the code of a left-hand side. -/
def CodeAbove (v : Vec) (above : Bool) (d : ℕ) (i : Instr) (a a' : ℕ) : Prop :=
  if above then v.instr d i a a' else a = a'

mutual
def CodeExpr (T : Tables) (v : Vec) (d : ℕ) (saved : Option ℕ) : Expr → ℕ → ℕ → Prop
  | .var x, a, a' => CodeVar T v d x a a'
  | .id slot, a, a' => v.instr d (.push slot) a a'
  | .and lhs rhs, a, a' => ∃ b c, CodeExpr T v d saved lhs a b ∧ v.instr (d+1) (.and a') b c ∧
      CodeExpr T v d saved rhs c a'
  | .or lhs rhs, a, a' => ∃ b c, CodeExpr T v d saved lhs a b ∧ v.instr (d+1) (.or a') b c ∧
      CodeExpr T v d saved rhs c a'
  | .unary op arg, a, a' => ∃ b, CodeExpr T v d saved arg a b ∧ v.instr (d+1) (.unary op) b a'
  | .binary op lhs rhs, a, a' => ∃ b c, CodeExpr T v d saved lhs a b ∧
      CodeExpr T v (d+1) saved rhs b c ∧ v.instr (d+2) (.binary op) c a'
  | .prop obj name, a, a' => ∃ b c, CodeExpr T v d saved obj a b ∧
      CodeExpr T v (d+1) saved name b c ∧ v.instr (d+2) .getProp c a'
  | .index base index, a, a' => ∃ b c, CodeExpr T v d saved base a b ∧
      CodeExpr T v (d+1) (some d) index b c ∧ v.instr (d+2) .ref c a'
  | .range base lo hi, a, a' => ∃ b c x, CodeExpr T v d saved base a b ∧
      CodeExpr T v (d+1) (some d) lo b c ∧ CodeExpr T v (d+2) (some d) hi c x ∧
      v.instr (d+3) .rangeRef x a'
  | .length, a, a' => ∃ index, saved = some index ∧ v.instr d (.length index) a a'
  | .list args, a, a' => CodeArgList T v d saved args a a'
  | .call func args, a, a' => ∃ b, CodeArgList T v d saved args a b ∧
      v.instr (d+1) (.biFuncCall func) b a'
  | .verb obj name args, a, a' => ∃ b c x, CodeExpr T v d saved obj a b ∧
      CodeExpr T v (d+1) saved name b c ∧ CodeArgList T v (d+2) saved args c x ∧
      v.instr (d+3) .callVerb x a'
  | .cond condition consequent alternate, a, a' => ∃ b c x y, CodeExpr T v d saved condition a b ∧
      v.instr (d+1) (.test .ifQues y) b c ∧ CodeExpr T v d saved consequent c x ∧
      v.instr (d+1) (.jump a') x y ∧ CodeExpr T v d saved alternate y a'
  | .asgn (.scatter sc) rhs, a, a' => ∃ b c targets, CodeExpr T v d saved rhs a b ∧
      v.instr (d+1) (.scatter sc.length (Scatter.nreq sc) (Scatter.rest sc) targets a') b c ∧
      CodeDefaults T v (d+1) saved sc targets c a'
  | .asgn lhs rhs, a, a' => ∃ b c, CodeLvalue T v d saved lhs false a b ∧
      CodeExpr T v (d+lvalueDepth lhs false) saved rhs b c ∧ CodeStoreRhs v d lhs c a'
  | .catch body codes default, a, a' => ∃ b c x y z, CodeCodes T v d saved codes a b ∧
      v.instr (d+1) (.pushLabel z) b c ∧ v.instr (d+2) .catch c x ∧
      CodeExpr T v (d+3) saved body x y ∧ v.instr (d+4) (.endCatch a') y z ∧
      CodeDefault T v d saved default z a'
  | .scatter _, _, _ => False
termination_by structural e => e
def CodeArgList (T : Tables) (v : Vec) (d : ℕ) (saved : Option ℕ) : ArgList → ℕ → ℕ → Prop
  | .nil, a, a' => v.instr d .makeEmptyList a a'
  | .cons kind expr next, a, a' => ∃ b c, CodeExpr T v d saved expr a b ∧
      v.instr (d+1) (firstInstr kind) b c ∧ CodeArgs T v d saved next c a'
termination_by structural a => a
def CodeArgs (T : Tables) (v : Vec) (d : ℕ) (saved : Option ℕ) : ArgList → ℕ → ℕ → Prop
  | .nil, a, a' => a = a'
  | .cons kind expr next, a, a' => ∃ b c, CodeExpr T v (d+1) saved expr a b ∧
      v.instr (d+2) (nextInstr kind) b c ∧ CodeArgs T v d saved next c a'
termination_by structural a => a
def CodeCodes (T : Tables) (v : Vec) (d : ℕ) (saved : Option ℕ) : ArgList → ℕ → ℕ → Prop
  | .nil, a, a' => v.instr d (.num 0) a a'
  | .cons kind expr next, a, a' => ∃ b c, CodeExpr T v d saved expr a b ∧
      v.instr (d+1) (firstInstr kind) b c ∧ CodeArgs T v d saved next c a'
termination_by structural a => a
def CodeLvalue (T : Tables) (v : Vec) (d : ℕ) (saved : Option ℕ) :
    Expr → Bool → ℕ → ℕ → Prop
  | .range base lo hi, _, a, a' =>
    let k := d+lvalueDepth base true
    ∃ b c, CodeLvalue T v d saved base true a b ∧ CodeExpr T v k (some (k-1)) lo b c ∧
      CodeExpr T v (k+1) (some (k-1)) hi c a'
  | .index base index, above, a, a' =>
    let k := d+lvalueDepth base true
    ∃ b c, CodeLvalue T v d saved base true a b ∧ CodeExpr T v k (some (k-1)) index b c ∧
      CodeAbove v above (k+1) .pushRef c a'
  | .id slot, above, a, a' => CodeAbove v above d (.push slot) a a'
  | .prop obj name, above, a, a' => ∃ b c, CodeExpr T v d saved obj a b ∧
      CodeExpr T v (d+1) saved name b c ∧ CodeAbove v above (d+2) .pushGetProp c a'
  | _, _, _, _ => False
termination_by structural e => e
/-- The defaults of a scattering assignment, with the operands of its targets. -/
def CodeDefaults (T : Tables) (v : Vec) (d : ℕ) (saved : Option ℕ) :
    Scatter → List (ℕ × ℕ) → ℕ → ℕ → Prop
  | .nil, targets, a, a' => targets = [] ∧ a = a'
  | .cons .optional id (.some expr) next, targets, a, a' => ∃ rest b c x,
      targets = (id, a)::rest ∧ CodeExpr T v d saved expr a b ∧
      v.instr (d+1) (.put (isReady id) id) b c ∧ v.instr (d+1) .pop c x ∧
      CodeDefaults T v d saved next rest x a'
  | .cons .optional id .none next, targets, a, a' => ∃ rest,
      targets = (id, 1)::rest ∧ CodeDefaults T v d saved next rest a a'
  | .cons _ id _ next, targets, a, a' => ∃ rest,
      targets = (id, 0)::rest ∧ CodeDefaults T v d saved next rest a a'
termination_by structural sc => sc
def CodeDefault (T : Tables) (v : Vec) (d : ℕ) (saved : Option ℕ) : OptExpr → ℕ → ℕ → Prop
  | .some expr, a, a' => ∃ b, v.instr (d+1) .pop a b ∧ CodeExpr T v d saved expr b a'
  | .none, a, a' => ∃ b, v.instr (d+1) (.num 1) a b ∧ v.instr (d+1) .ref b a'
termination_by structural e => e
end

/-- A loop around the code, with the offsets its exits go to. -/
structure LoopAt where
  id : Option ℕ
  top : ℕ
  topStack : ℕ
  bottom : ℕ
  bottomStack : ℕ
  deriving DecidableEq, Repr

def findLoopAt (exit : Option ℕ) (loops : List LoopAt) : Option LoopAt :=
  match exit with
  | none => loops.head?
  | some id => loops.find? (fun l => l.id == some id)

def CodeTest (v : Vec) (d : ℕ) (id : Option ℕ) (label a a' : ℕ) : Prop :=
  match id with
  | none => v.instr d (.test .while label) a a'
  | some id => v.instr d (.whileId id label) a a'

def CodeArmId (v : Vec) (d : ℕ) (id : Option ℕ) (a a' : ℕ) : Prop :=
  match id with
  | none => a = a'
  | some id => v.instr d (.put (isReady id) id) a a'

/-- The vector that `stmt_to_code` makes of a statement list within a program. -/
def Compiled (T : Tables) (ss : Stmts) (vector : Finished) : Prop :=
  ∃ g g', stmtToCode ss g = .ok (vector, g') ∧ g'.literals <+: T.literals ∧
    g'.forkVectors <+: T.forkVectors

def CodeHandlers (T : Tables) (v : Vec) : ℕ → ExceptArms → List ℕ → ℕ → ℕ → Prop
  | _, .nil, handlers, a, a' => handlers = [] ∧ a = a'
  | d, .cons _ codes _ next, handlers, a, a' => ∃ h hs b c, handlers = h::hs ∧
      CodeCodes T v d none codes a b ∧ v.instr (d+1) (.pushLabel h) b c ∧
      CodeHandlers T v (d+2) next hs c a'

mutual
def CodeStmt (T : Tables) (v : Vec) (d : ℕ) (loops : List LoopAt) : Stmt → ℕ → ℕ → Prop
  | .cond arms otherwise, a, a' => ∃ b, CodeArms T v d loops .if a' arms a b ∧
      CodeStmts T v d loops otherwise b a'
  | .list id expr body, a, a' => ∃ b c x y, CodeExpr T v d none expr a b ∧
      v.instr (d+1) (.num 1) b c ∧ v.instr (d+2) (.forList id a') c x ∧
      CodeStmts T v (d+2) (⟨some id, c, d+2, a', d⟩::loops) body x y ∧
      v.instr (d+2) (.jump c) y a'
  | .range id lo hi body, a, a' => ∃ b c x y, CodeExpr T v d none lo a b ∧
      CodeExpr T v (d+1) none hi b c ∧ v.instr (d+2) (.forRange id a') c x ∧
      CodeStmts T v (d+2) (⟨some id, c, d+2, a', d⟩::loops) body x y ∧
      v.instr (d+2) (.jump c) y a'
  | .while id condition body, a, a' => ∃ b c x, CodeExpr T v d none condition a b ∧
      CodeTest v (d+1) id a' b c ∧ CodeStmts T v d (⟨id, a, d, a', d⟩::loops) body c x ∧
      v.instr d (.jump a) x a'
  | .fork id time body, a, a' => ∃ b f vector, CodeExpr T v d none time a b ∧
      v.instr (d+1) (.fork f id) b a' ∧ T.forkVectors[f]? = some vector ∧ Compiled T body vector
  | .expr expr, a, a' => ∃ b, CodeExpr T v d none expr a b ∧ v.instr (d+1) .pop b a'
  | .return (some expr), a, a' => ∃ b, CodeExpr T v d none expr a b ∧ v.instr (d+1) .return b a'
  | .return none, a, a' => v.instr d .return0 a a'
  | .tryExcept body excepts, a, a' => ∃ handlers b c x y, CodeHandlers T v d excepts handlers a b ∧
      v.instr (d+2*excepts.length) (.tryExcept excepts.length) b c ∧
      CodeStmts T v (d+2*excepts.length+1) loops body c x ∧
      v.instr (d+2*excepts.length+1) (.endExcept a') x y ∧
      CodeExcepts T v d loops a' excepts handlers y a'
  | .tryFinally body handler, a, a' => ∃ b c x y, v.instr d (.tryFinally x) a b ∧
      CodeStmts T v (d+1) loops body b c ∧ v.instr (d+1) .endFinally c x ∧
      CodeStmts T v (d+2) loops handler x y ∧ v.instr (d+2) .continue y a'
  | .break exit, a, a' => ∃ l, findLoopAt exit loops = some l ∧
      v.instr d (.exit exit l.bottomStack l.bottom) a a'
  | .continue exit, a, a' => ∃ l, findLoopAt exit loops = some l ∧
      v.instr d (.exit exit l.topStack l.top) a a'
termination_by structural st => st
def CodeStmts (T : Tables) (v : Vec) (d : ℕ) (loops : List LoopAt) : Stmts → ℕ → ℕ → Prop
  | .nil, a, a' => a = a'
  | .cons stmt next, a, a' => ∃ b, CodeStmt T v d loops stmt a b ∧ CodeStmts T v d loops next b a'
termination_by structural ss => ss
/-- The arms of a conditional, each of which ends with a jump to `done`. -/
def CodeArms (T : Tables) (v : Vec) (d : ℕ) (loops : List LoopAt) :
    TestOp → ℕ → CondArms → ℕ → ℕ → Prop
  | _, _, .nil, a, a' => a = a'
  | op, done, .cons condition stmt next, a, a' => ∃ b c x y, CodeExpr T v d none condition a b ∧
      v.instr (d+1) (.test op y) b c ∧ CodeStmts T v d loops stmt c x ∧
      v.instr d (.jump done) x y ∧ CodeArms T v d loops .eif done next y a'
termination_by structural _ _ arms => arms
def CodeExcepts (T : Tables) (v : Vec) (d : ℕ) (loops : List LoopAt) :
    ℕ → ExceptArms → List ℕ → ℕ → ℕ → Prop
  | _, .nil, _, a, a' => a = a'
  | done, .cons id _ stmt next, handlers, a, a' => ∃ b c x, handlers.head? = some a ∧
      CodeArmId v (d+1) id a b ∧ v.instr (d+1) .pop b c ∧ CodeStmts T v d loops stmt c x ∧
      (match next with
        | .nil => x = a'
        | .cons _ _ _ _ => ∃ y, v.instr d (.jump done) x y ∧
            CodeExcepts T v d loops done next handlers.tail y a')
termination_by structural _ arms => arms
end

/-- A vector that is the code of a statement list, from its first byte to `OP_DONE`. -/
def CodeVector (T : Tables) (v : Vec) (ss : Stmts) : Prop :=
  ∃ a, CodeStmts T v 0 [] ss 0 a ∧ v.instr 0 .done a v.bc.size

end LambdaMoo.CodeGen
