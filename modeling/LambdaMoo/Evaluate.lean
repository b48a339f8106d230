import LambdaMoo.Machine
import LambdaMoo.Scattering

/-!
# Evaluation of expressions

What an expression means, on the tree itself: its parts are evaluated from the
left to the right, each may change the variables and the rest of the server,
and an error ends the evaluation unless a catch expression around it is for
the code of the error. There is no stack and no temporary register here.
-/

set_option autoImplicit false

namespace LambdaMoo.Run
open LambdaMoo.Execute LambdaMoo.CodeGen

/-- A result, or an error with what its handlers are told, and what the evaluation leaves. -/
inductive Answer (σ α : Type) where
  | value (w : α) (f : Frame σ)
  | raise (code : Var) (args : List Var) (f : Frame σ)

def Eval (σ α : Type) := Frame σ → Result (Answer σ α)

namespace Eval
variable {σ α β : Type}

def pure (w : α) : Eval σ α := fun f => .ok (.value w f)

def bind (m : Eval σ α) (k : α → Eval σ β) : Eval σ β := fun f => do
  match ← m f with
  | .value w g => k w g
  | .raise code args g => return .raise code args g

instance : Monad (Eval σ) where
  pure := pure
  bind := bind

def fault (what : String) : Eval σ α := fun _ => .error (.undefined what)

def update (g : Frame σ → Frame σ) (w : α) : Eval σ α := fun f => .ok (.value w (g f))

def setVar (id : ℕ) (v : Var) : Eval σ Unit := update (·.set id v) ()

def reraise (code : Var) (args : List Var) : Eval σ α := fun f => .ok (.raise code args f)

/-- The evaluation, or what is to be done about an error in it. -/
def handle (m : Eval σ α) (handler : Var → List Var → Eval σ α) : Eval σ α := fun f => do
  match ← m f with
  | .value w g => return .value w g
  | .raise code args g => handler code args g

/-- A catch expression, given what to do with the code of an error that it is for. -/
def guarded (m : Eval σ α) (codes : Var) (default : Var → Eval σ α) : Eval σ α :=
  m.handle fun code args => if handles code codes then default code else reraise code args

variable (host : Host σ)

def raise (code : Var) : Eval σ α := fun f => .ok (.raise code (host.report code f.world) f)

def call (k : Call σ) : Eval σ Var := fun f => do
  let (r, w) ← k f.world
  match r with
  | .ok v => return .value v ⟨f.env, w⟩
  | .error code => return .raise code (host.report code w) ⟨f.env, w⟩

def getVar (id : ℕ) : Eval σ Var := fun f => call host (given (variableValue (f.env id))) f

end Eval

/-- Where an assignment goes, with the parts of the left-hand side evaluated. -/
inductive Place where
  | id (slot : ℕ)
  | prop (obj name : Var)
  | index (outer : Place) (base index : Var)
  | range (outer : Place) (base lo hi : Var)

section Evaluation
variable {σ : Type} [FloatOps] (host : Host σ)

def readPlace : Place → Eval σ Var
  | .id slot => .getVar host slot
  | .prop obj name => .call host (host.getProp obj name)
  | .index _ base index => .call host (still (opPushRef base index))
  | .range _ _ _ _ => .fault "left-hand side"

/-- The value is put in the part, the part in the whole, and so on up to a variable or property. -/
def storePlace : Place → Var → Eval σ Var
  | .id slot, v => do
    Eval.setVar slot v
    return v
  | .prop obj name, v => .call host (host.putProp obj name v)
  | .index outer base index, v => do
    storePlace outer (← Eval.call host (indexsetCall host base index v))
  | .range outer base lo hi, v => do
    storePlace outer (← Eval.call host (still (rangeset base lo hi v)))

instance (sc : Scatter) (l : List Var) : Decidable (Suits sc l) :=
  inferInstanceAs (Decidable (_ ∧ _))

/-- Binds the targets that there are elements for; an `int` counts the elements. -/
def bindTargets (sc : Scatter) : Var → Eval σ (List (List Var))
  | .list l =>
    if sc.vet = true ∧ l.length < 2^31 then
      if Suits sc l then .update (assign sc (piecesOf sc l)) (piecesOf sc l)
      else .raise host (.err .args)
    else .fault "scattering assignment"
  | _ => .raise host (.err .type)

mutual
/-- `dollar` is the value that `$` is the length of. -/
def evalExpr : Option Var → Expr → Eval σ Var
  | _, .var x => return x
  | _, .id slot => .getVar host slot
  | dollar, .and lhs rhs => do
    let v ← evalExpr dollar lhs
    if isTrue v then evalExpr dollar rhs else return v
  | dollar, .or lhs rhs => do
    let v ← evalExpr dollar lhs
    if isTrue v then return v else evalExpr dollar rhs
  | dollar, .unary op arg => do
    let v ← evalExpr dollar arg
    Eval.call host (given (answer (unaryOp op v)))
  | dollar, .binary op lhs rhs => do
    let v ← evalExpr dollar lhs
    let w ← evalExpr dollar rhs
    Eval.call host (still (do return answer (← binaryOp op v w)))
  | dollar, .prop obj name => do
    let v ← evalExpr dollar obj
    let w ← evalExpr dollar name
    Eval.call host (host.getProp v w)
  | dollar, .index base index => do
    let v ← evalExpr dollar base
    let i ← evalExpr (some v) index
    Eval.call host (refCall host v i)
  | dollar, .range base lo hi => do
    let v ← evalExpr dollar base
    let i ← evalExpr (some v) lo
    let j ← evalExpr (some v) hi
    Eval.call host (still (opRangeRef v i j))
  | some v, .length => .call host (still (bfLength v))
  | none, .length => .fault "`$'"
  | dollar, .list args => evalArgList dollar args
  | dollar, .call func args => do
    let v ← evalArgList dollar args
    Eval.call host (host.callBiFunc func v)
  | dollar, .verb obj name args => do
    let v ← evalExpr dollar obj
    let w ← evalExpr dollar name
    let l ← evalArgList dollar args
    Eval.call host (host.callVerb v w l)
  | dollar, .cond condition consequent alternate => do
    let v ← evalExpr dollar condition
    if isTrue v then evalExpr dollar consequent else evalExpr dollar alternate
  | dollar, .asgn (.scatter sc) rhs => do
    let v ← evalExpr dollar rhs
    let pieces ← bindTargets host sc v
    evalDefaults dollar sc pieces
    return v
  | dollar, .asgn lhs rhs => do
    let place ← evalPlace dollar lhs
    let v ← evalExpr dollar rhs
    let w ← storePlace host place v
    return if Expr.isIndexed lhs then v else w
  | dollar, .catch body codes default => do
    let v ← evalCodes dollar codes
    Eval.guarded (evalExpr dollar body) v (evalDefault dollar default)
  | _, .scatter _ => .fault "scattering target"
termination_by structural _ e => e
def evalArgList : Option Var → ArgList → Eval σ Var
  | _, .nil => return .list []
  | dollar, .cons kind expr next => do
    let v ← evalExpr dollar expr
    let l ← Eval.call host (given (firstList kind v))
    evalArgs dollar next l
termination_by structural _ args => args
def evalArgs : Option Var → ArgList → Var → Eval σ Var
  | _, .nil, l => return l
  | dollar, .cons kind expr next, l => do
    let v ← evalExpr dollar expr
    let l ← Eval.call host (given (nextList kind l v))
    evalArgs dollar next l
termination_by structural _ args => args
def evalCodes : Option Var → ArgList → Eval σ Var
  | _, .nil => return .int 0
  | dollar, .cons kind expr next => do
    let v ← evalExpr dollar expr
    let l ← Eval.call host (given (firstList kind v))
    evalArgs dollar next l
termination_by structural _ args => args
/-- The parts of a left-hand side; what the outer ones are of is read on the way. -/
def evalPlace : Option Var → Expr → Eval σ Place
  | _, .id slot => return .id slot
  | dollar, .prop obj name => do
    let v ← evalExpr dollar obj
    let w ← evalExpr dollar name
    return .prop v w
  | dollar, .index base index => do
    let outer ← evalPlace dollar base
    let v ← readPlace host outer
    let i ← evalExpr (some v) index
    return .index outer v i
  | dollar, .range base lo hi => do
    let outer ← evalPlace dollar base
    let v ← readPlace host outer
    let i ← evalExpr (some v) lo
    let j ← evalExpr (some v) hi
    return .range outer v i j
  | _, _ => .fault "left-hand side"
termination_by structural _ e => e
/-- The defaults of the optional targets that got nothing. -/
def evalDefaults : Option Var → Scatter → List (List Var) → Eval σ Unit
  | dollar, .cons .optional id (.some expr) next, []::pieces => do
    let v ← evalExpr dollar expr
    Eval.setVar id v
    evalDefaults dollar next pieces
  | dollar, .cons _ _ _ next, _::pieces => evalDefaults dollar next pieces
  | _, _, _ => return ()
termination_by structural _ sc => sc
def evalDefault : Option Var → OptExpr → Var → Eval σ Var
  | dollar, .some expr, _ => evalExpr dollar expr
  | _, .none, code => return code
termination_by structural _ e => e
end

end Evaluation

end LambdaMoo.Run
