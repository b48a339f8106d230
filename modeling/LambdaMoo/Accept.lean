import LambdaMoo.Ast

/-!
# Trees the parser accepts

The conditions that the grammar actions of the parser check or guarantee for
every tree they build without reporting an error. `$` is legal between the
brackets of an index or range, and a loop exit names a loop of the same fork
body; a slot is a C `int` and a built-in function number a byte.
-/

set_option autoImplicit false

namespace LambdaMoo

def Var.isLiteral : Var → Bool
  | .int _ | .obj _ | .str _ | .err _ | .float _ => true
  | _ => false

def slotOk (slot : ℕ) : Bool := slot < 2^31

def Expr.isIndexBase : Expr → Bool
  | .index base _ => base.isIndexBase
  | .id _ | .prop _ _ => true
  | _ => false

/-- The left sides of an assignment: at most one range, then indexes, then a
variable or property. -/
def Expr.isLvalue : Expr → Bool
  | .range base _ _ => base.isIndexBase
  | e => e.isIndexBase

def Scatter.rests : Scatter → ℕ
  | .nil => 0
  | .cons kind _ _ next => (if kind = .rest then 1 else 0)+next.rests

def Scatter.vet (sc : Scatter) : Bool := sc.rests ≤ 1 && sc.length ≤ 255 && sc.length ≠ 0

mutual
def Expr.accepts (dollar : Bool) : Expr → Bool
  | .var v => v.isLiteral
  | .id slot => slotOk slot
  | .prop lhs rhs | .and lhs rhs | .or lhs rhs | .binary _ lhs rhs =>
    lhs.accepts dollar && rhs.accepts dollar
  | .unary _ arg => arg.accepts dollar
  | .verb obj name args => obj.accepts dollar && name.accepts dollar && args.accepts dollar
  | .index base index => base.accepts dollar && index.accepts true
  | .range base lo hi => base.accepts dollar && lo.accepts true && hi.accepts true
  | .asgn (.scatter sc) rhs => sc.vet && sc.accepts dollar && rhs.accepts dollar
  | .asgn lhs rhs => lhs.isLvalue && lhs.accepts dollar && rhs.accepts dollar
  | .call func args => func < 256 && args.accepts dollar
  | .list args => args.accepts dollar
  | .cond condition consequent alternate =>
    condition.accepts dollar && consequent.accepts dollar && alternate.accepts dollar
  | .catch body codes default =>
    body.accepts dollar && codes.accepts dollar && default.accepts dollar
  | .length => dollar
  | .scatter _ => false
termination_by structural e => e
def ArgList.accepts (dollar : Bool) : ArgList → Bool
  | .nil => true
  | .cons _ expr next => expr.accepts dollar && next.accepts dollar
termination_by structural a => a
def Scatter.accepts (dollar : Bool) : Scatter → Bool
  | .nil => true
  | .cons kind id default next =>
    slotOk id && (kind = .optional || default = .none) && default.accepts dollar
      && next.accepts dollar
termination_by structural sc => sc
def OptExpr.accepts (dollar : Bool) : OptExpr → Bool
  | .none => true
  | .some expr => expr.accepts dollar
termination_by structural e => e
end

theorem Expr.accepts_asgn (lhs rhs : Expr) (hl : ∀ sc, lhs ≠ .scatter sc) (dollar : Bool) :
    (Expr.asgn lhs rhs).accepts dollar =
      (lhs.isLvalue && lhs.accepts dollar && rhs.accepts dollar) := by
  cases lhs <;> first | rfl | exact absurd rfl (hl _)

def exitOk (loops : List (Option ℕ)) : Option ℕ → Bool
  | none => !loops.isEmpty
  | some id => loops.contains (some id)

def nameOk : Option ℕ → Bool
  | none => true
  | some id => slotOk id

mutual
def Stmt.accepts (loops : List (Option ℕ)) : Stmt → Bool
  | .cond arms otherwise => arms ≠ .nil && arms.accepts loops && otherwise.accepts loops
  | .list id expr body => slotOk id && expr.accepts false && body.accepts (some id::loops)
  | .range id lo hi body =>
    slotOk id && lo.accepts false && hi.accepts false && body.accepts (some id::loops)
  | .while id condition body =>
    nameOk id && condition.accepts false && body.accepts (id::loops)
  | .fork id time body => nameOk id && time.accepts false && body.accepts []
  | .expr expr => expr.accepts false
  | .return (some expr) => expr.accepts false
  | .return none => true
  | .tryExcept body excepts =>
    excepts ≠ .nil && excepts.length ≤ 256 && body.accepts loops && excepts.accepts loops
  | .tryFinally body handler => body.accepts loops && handler.accepts loops
  | .break exit | .continue exit => exitOk loops exit
termination_by structural st => st
def Stmts.accepts (loops : List (Option ℕ)) : Stmts → Bool
  | .nil => true
  | .cons stmt next => stmt.accepts loops && next.accepts loops
termination_by structural ss => ss
def CondArms.accepts (loops : List (Option ℕ)) : CondArms → Bool
  | .nil => true
  | .cons condition stmt next =>
    condition.accepts false && stmt.accepts loops && next.accepts loops
termination_by structural arms => arms
/-- Only the last arm may have `ANY` for its codes. -/
def ExceptArms.accepts (loops : List (Option ℕ)) : ExceptArms → Bool
  | .nil => true
  | .cons id codes stmt next =>
    nameOk id && codes.accepts false && (codes ≠ .nil || next = .nil) && stmt.accepts loops
      && next.accepts loops
termination_by structural arms => arms
end

end LambdaMoo
