import LambdaMoo.Evaluate
import LambdaMoo.Loops

/-!
# Behaviour of statements

What a statement does, on the tree itself: it falls through, returns, or leaves
or goes on with a loop around it, or raises an error. Only a `while` may need
more rounds than are allowed for. What a fork statement starts is told by the
tree of its body.
-/

set_option autoImplicit false

namespace LambdaMoo.Run
open LambdaMoo.Execute LambdaMoo.CodeGen

/-- How a statement ends, if with no error. -/
inductive Way where
  | fall
  | return (v : Var)
  | break (exit : Option ℕ)
  | continue (exit : Option ℕ)

/-- The number of the task that runs a body later. -/
abbrev ForkTree (σ : Type) := Stmts → Num → Option ℕ → (ℕ → Var) → σ → Result (Except Err Num×σ)

section Behaviour
variable {σ : Type}

def thenDo (next : Eval σ Way) : Way → Eval σ Way
  | .fall => next
  | way => return way

/-- The end of a body of the loop with the variable `id`. -/
def loopOn (id : Option ℕ) (again : Eval σ Way) : Way → Eval σ Way
  | .fall => again
  | .break exit => if exit = none ∨ exit = id then return .fall else return .break exit
  | .continue exit => if exit = none ∨ exit = id then again else return .continue exit
  | .return v => return .return v

/-- A body for each of some values. -/
def overValues (id : ℕ) (body : Eval σ Way) : List Var → Eval σ Way
  | [] => return .fall
  | v::vs => do
    Eval.setVar id v
    let way ← body
    loopOn (some id) (overValues id body vs) way

/-- The values of a list; an `int` counts them. -/
def elements (host : Host σ) : Var → Eval σ (List Var)
  | .list l => if l.length < 2^31 then return l else .fault "long list"
  | _ => .raise host (.err .type)

def bounds (host : Host σ) : Var → Var → Eval σ (List Var)
  | .int lo, .int hi => return rangeValues .int lo hi
  | .obj lo, .obj hi => return rangeValues .obj lo hi
  | _, _ => .raise host (.err .type)

/-- The handler runs however the body ends, and then that goes on. -/
def finallyDo (body handler : Eval σ Way) : Eval σ Way := fun f => do
  match ← body f with
  | .value way g => (handler >>= thenDo (return way)) g
  | .raise code args g => (handler >>= thenDo (Eval.reraise code args)) g

/-- A body as long as the condition holds, with a limit to the rounds. -/
def whileTrue [FloatOps] (id : Option ℕ) (condition : Eval σ Var) (body : Eval σ Way) : ℕ → Eval σ Way
  | 0 => fun _ => .error .outOfFuel
  | n+1 => do
    let v ← condition
    id.elim (return ()) fun id => Eval.setVar id v
    if isTrue v then
      let way ← body
      loopOn id (whileTrue id condition body n) way
    else return .fall

variable (host : Host σ) (forkTree : ForkTree σ)

def startTask (id : Option ℕ) (body : Stmts) (delay : Num) : Eval σ Way := fun f => do
  let (r, w) ← forkTree body delay id f.env f.world
  match r with
  | .ok task =>
    return .value .fall (id.elim ⟨f.env, w⟩ fun id => Frame.set ⟨f.env, w⟩ id (.int task))
  | .error e => return .raise (.err e) (host.report (.err e) w) ⟨f.env, w⟩

def forkBody (id : Option ℕ) (body : Stmts) : Var → Eval σ Way
  | .int delay =>
    if delay.toInt < 0 then .raise host (.err .invarg) else startTask host forkTree id body delay
  | _ => .raise host (.err .type)

variable [FloatOps]

/-- The codes that each arm is for. -/
def evalHandlers : ExceptArms → Eval σ (List Var)
  | .nil => return []
  | .cons _ codes _ next => do
    let v ← evalCodes host none codes
    let vs ← evalHandlers next
    return v::vs

mutual
def evalStmt (n : ℕ) : Stmt → Eval σ Way
  | .cond arms otherwise => evalArms n arms (evalStmts n otherwise)
  | .list id expr body => do
    let v ← evalExpr host none expr
    let vs ← elements host v
    overValues id (evalStmts n body) vs
  | .range id lo hi body => do
    let v ← evalExpr host none lo
    let w ← evalExpr host none hi
    let vs ← bounds host v w
    overValues id (evalStmts n body) vs
  | .while id condition body => whileTrue id (evalExpr host none condition) (evalStmts n body) n
  | .fork id time body => do
    let v ← evalExpr host none time
    forkBody host forkTree id body v
  | .expr expr => do
    let _ ← evalExpr host none expr
    return .fall
  | .return (some expr) => do
    let v ← evalExpr host none expr
    return .return v
  | .return none => return .return zero
  | .tryExcept body excepts => do
    let codes ← evalHandlers host excepts
    Eval.handle (evalStmts n body) fun code args => evalExcepts n excepts codes code args
  | .tryFinally body handler => finallyDo (evalStmts n body) (evalStmts n handler)
  | .break exit => return .break exit
  | .continue exit => return .continue exit
termination_by structural st => st
def evalStmts (n : ℕ) : Stmts → Eval σ Way
  | .nil => return .fall
  | .cons stmt next => do
    let way ← evalStmt n stmt
    thenDo (evalStmts n next) way
termination_by structural ss => ss
def evalArms (n : ℕ) : CondArms → Eval σ Way → Eval σ Way
  | .nil, otherwise => otherwise
  | .cons condition stmt next, otherwise => do
    let v ← evalExpr host none condition
    if isTrue v then evalStmts n stmt else evalArms n next otherwise
termination_by structural arms => arms
/-- The first arm that is for the code; its variable is told of the error. -/
def evalExcepts (n : ℕ) : ExceptArms → List Var → Var → List Var → Eval σ Way
  | .cons id _ stmt next, codes::rest, code, args =>
    if handles code codes then do
      id.elim (return ()) fun id => Eval.setVar id (.list (code::args))
      evalStmts n stmt
    else evalExcepts n next rest code args
  | _, _, code, args => .reraise code args
termination_by structural arms => arms
end

end Behaviour

end LambdaMoo.Run
