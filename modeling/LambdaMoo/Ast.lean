import LambdaMoo.Values

/-!
# Abstract syntax

The trees that the grammar actions of the parser build and the decompiler
rebuilds. The linked lists of the C structures are inductive types of their
own, with the null pointer as `nil`; an `int` field that holds `-1` for an
absent name is an `Option`.
-/

set_option autoImplicit false

namespace LambdaMoo

inductive ArgKind where
  | normal | splice
  deriving DecidableEq, Repr

inductive ScatterKind where
  | required | optional | rest
  deriving DecidableEq, Repr

/-- The expression kinds that evaluate both operands and apply one operator. -/
inductive BinaryOp where
  | plus | minus | times | divide | mod | exp
  | eq | ne | lt | le | gt | ge | in
  | bitor | bitxor | bitand | shl | shr | lshr
  deriving DecidableEq, Repr

inductive UnaryOp where
  | negate | not | complement
  deriving DecidableEq, Repr

mutual
inductive Expr where
  | var (v : Var)
  | id (slot : ℕ)
  | prop (obj name : Expr)
  | verb (obj name : Expr) (args : ArgList)
  | index (base index : Expr)
  | range (base lo hi : Expr)
  | asgn (lhs rhs : Expr)
  | call (func : ℕ) (args : ArgList)
  | binary (op : BinaryOp) (lhs rhs : Expr)
  | and (lhs rhs : Expr)
  | or (lhs rhs : Expr)
  | unary (op : UnaryOp) (arg : Expr)
  | list (args : ArgList)
  | cond (condition consequent alternate : Expr)
  | catch (body : Expr) (codes : ArgList) (default : OptExpr)
  | length
  | scatter (targets : Scatter)
  deriving DecidableEq, Repr
inductive ArgList where
  | nil
  | cons (kind : ArgKind) (expr : Expr) (next : ArgList)
  deriving DecidableEq, Repr
inductive Scatter where
  | nil
  | cons (kind : ScatterKind) (id : ℕ) (expr : OptExpr) (next : Scatter)
  deriving DecidableEq, Repr
inductive OptExpr where
  | none
  | some (expr : Expr)
  deriving DecidableEq, Repr
end

mutual
inductive Stmt where
  | cond (arms : CondArms) (otherwise : Stmts)
  | list (id : ℕ) (expr : Expr) (body : Stmts)
  | range (id : ℕ) (lo hi : Expr) (body : Stmts)
  | while (id : Option ℕ) (condition : Expr) (body : Stmts)
  | fork (id : Option ℕ) (time : Expr) (body : Stmts)
  | expr (expr : Expr)
  | return (expr : Option Expr)
  | tryExcept (body : Stmts) (excepts : ExceptArms)
  | tryFinally (body handler : Stmts)
  | break (exit : Option ℕ)
  | continue (exit : Option ℕ)
  deriving DecidableEq, Repr
inductive Stmts where
  | nil
  | cons (stmt : Stmt) (next : Stmts)
  deriving DecidableEq, Repr
inductive CondArms where
  | nil
  | cons (condition : Expr) (stmt : Stmts) (next : CondArms)
  deriving DecidableEq, Repr
inductive ExceptArms where
  | nil
  | cons (id : Option ℕ) (codes : ArgList) (stmt : Stmts) (next : ExceptArms)
  deriving DecidableEq, Repr
end

def ArgList.append : ArgList → ArgList → ArgList
  | .nil, b => b
  | .cons k e n, b => .cons k e (n.append b)

def Stmts.append : Stmts → Stmts → Stmts
  | .nil, b => b
  | .cons s n, b => .cons s (n.append b)

def Stmts.single (s : Stmt) : Stmts := .cons s .nil

def Scatter.length : Scatter → ℕ
  | .nil => 0
  | .cons _ _ _ n => n.length+1

def ExceptArms.length : ExceptArms → ℕ
  | .nil => 0
  | .cons _ _ _ n => n.length+1

end LambdaMoo
