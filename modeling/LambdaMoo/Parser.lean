import LambdaMoo.Lexer

/-!
# The grammar of programs

The rules of the grammar with their actions. The actions find slots for the
names they meet, follow the loops around a statement and the places where `$`
may stand, and complain about what the rules alone do not exclude. A program
is accepted when its tokens have a derivation without a complaint; which of
two derivations is taken, where there are two, is left to the declarations of
precedence, which nothing here depends on.
-/

set_option autoImplicit false

namespace LambdaMoo.Parse
open LambdaMoo.DbIo LambdaMoo.Grammar

structure LoopEntry where
  name : Option Str
  isBarrier : Bool
  deriving DecidableEq, Repr

structure PState where
  names : List Str
  dollarsOk : ℤ
  loops : List LoopEntry
  errors : List (String × Option Str)
  deriving DecidableEq, Repr

def PState.error (s : PState) (text : String) (name : Option Str) : PState :=
  {s with errors := s.errors ++ [(text, name)]}

def yyerror (text : String) (s : PState) : PState := s.error text none

def builtinNames (version : DbVersion) : List Str :=
  (["NUM", "OBJ", "STR", "LIST", "ERR", "player", "this", "caller", "verb", "args", "argstr",
    "dobj", "dobjstr", "prepstr", "iobj", "iobjstr"]
    ++ if floats version then ["INT", "FLOAT"] else []).map ascii

def findOrAddName (name : Str) (names : List Str) : ℕ × List Str :=
  match names.findIdx? (fun n => mystrcasecmp n name == 0) with
  | some i => (i, names)
  | none => (names.length, names ++ [name])

def findId (name : Str) (s : PState) : ℕ × PState :=
  let r := findOrAddName name s.names
  (r.1, {s with names := r.2})

def maxFunc : ℕ := 256

/-- The place of a built-in function in the table `functions` of their names. -/
def numberFuncByName (functions : List Str) (name : Str) : ℕ :=
  (functions.findIdx? (fun f => mystrcasecmp name f == 0)).getD maxFunc

def pushLoopName (name : Option Str) (s : PState) : PState :=
  {s with loops := ⟨name, false⟩::s.loops}

def popLoopName (s : PState) : PState :=
  match s.loops with
  | ⟨_, false⟩::rest => {s with loops := rest}
  | _ => s

def suspendLoopScope (s : PState) : PState := {s with loops := ⟨none, true⟩::s.loops}

def resumeLoopScope (s : PState) : PState :=
  match s.loops with
  | ⟨_, true⟩::rest => {s with loops := rest}
  | _ => s

/-- `isBreak` tells the kind of loop exit. -/
def checkLoopName (name : Option Str) (isBreak : Bool) (s : PState) : PState :=
  match name with
  | none =>
    match s.loops with
    | ⟨_, false⟩::_ => s
    | _ =>
      if isBreak then yyerror "No enclosing loop for `break' statement" s
      else yyerror "No enclosing loop for `continue' statement" s
  | some n =>
    if (s.loops.takeWhile (fun l => !l.isBarrier)).any
        (fun l => l.name.any (fun m => mystrcasecmp m n == 0)) then s
    else if isBreak then s.error "Invalid loop name in `break' statement: " (some n)
    else s.error "Invalid loop name in `continue' statement: " (some n)

def appendArms : CondArms → CondArms → CondArms
  | .nil, b => b
  | .cons c s n, b => .cons c s (appendArms n b)

def appendExcepts : ExceptArms → ExceptArms → ExceptArms
  | .nil, b => b
  | .cons i c s n, b => .cons i c s (appendExcepts n b)

def addScatterItem : Scatter → Scatter → Scatter
  | .nil, b => b
  | .cons k i e n, b => .cons k i e (addScatterItem n b)

/-- `none` where a target is no variable. -/
def scatterTargetsOf : ArgList → Option Scatter
  | .nil => some .nil
  | .cons kind (.id slot) next =>
    (scatterTargetsOf next).map
      (.cons (if kind = .normal then .required else .rest) slot .none)
  | .cons _ _ _ => none

def scatterFromArglist (a : ArgList) (s : PState) : Scatter × PState :=
  match scatterTargetsOf a with
  | some sc => (sc, s)
  | none => (.nil, yyerror "Scattering assignment targets must be simple variables." s)

def vetRest : Bool → Scatter → PState → PState
  | _, .nil, s => s
  | seen, .cons kind _ _ next, s =>
    if kind = .rest then
      vetRest true next
        (if seen then yyerror "More than one `@' target in scattering assignment." s else s)
    else vetRest seen next s

def vetScatter (sc : Scatter) (s : PState) : PState :=
  let s := vetRest false sc s
  if 255 < sc.length then yyerror "Too many targets in scattering assignment." s else s

/-- The variable or property at the root of an indexed expression. -/
def indexRoot : Expr → Expr
  | .index base _ => indexRoot base
  | e => e

def assignRoot : Expr → Expr
  | .range base _ _ => indexRoot base
  | e => indexRoot e

def isTarget : Expr → Bool
  | .id _ | .prop _ _ => true
  | _ => false

def checkAssign (lhs : Expr) (s : PState) : Expr × PState :=
  match lhs with
  | .list .nil => (.scatter .nil, yyerror "Empty list in scattering assignment." s)
  | .list args =>
    let r := scatterFromArglist args s
    (.scatter r.1, vetScatter r.1 r.2)
  | e =>
    (e, if isTarget (assignRoot e) then s
      else yyerror "Illegal expression on left side of assignment." s)

def lastCodes : ExceptArms → ArgList
  | .nil => .nil
  | .cons _ codes _ .nil => codes
  | .cons _ _ _ next => lastCodes next

def checkExcepts (arms : ExceptArms) (s : PState) : PState :=
  if lastCodes arms = .nil then yyerror "Unreachable EXCEPT clause" s
  else if 255 < arms.length then yyerror "Too many EXCEPT clauses (max. 255)" s
  else s

inductive Nt where
  | program | statements | statement | elseifs | elsepart | excepts | except | optId
  | expr | dollarsUp | codes | default | arglist | neArglist | scatter | scatterItem
  | pushForList | pushForRange | pushWhile | pushWhileId | suspendScope | checkExcepts
  deriving DecidableEq, Repr

inductive Rule where
  | program | noStatements | moreStatements
  | cond | forList | forRange | while | whileId | fork | forkId | exprStmt
  | break | breakId | continue | continueId | return | return0 | empty | tryExcept | tryFinally
  | pushForList | pushForRange | pushWhile | pushWhileId | suspendScope
  | noElseifs | moreElseifs | noElse | else
  | oneExcept | moreExcepts | checkExcepts | except | noId | someId
  | integer | float | string | object | error | id
  | dollarProp | prop | propExpr | verb | dollarVerb | verbExpr | index | range | dollar
  | assign | scatterAssign | call | binary (op : BinaryOp) | and | or
  | unaryMinus | complement | not | paren | list | condExpr | catch
  | dollarsUp | anyCode | codes | noDefault | default | noArgs | args
  | oneArg | oneSplice | moreArgs | moreSplices
  | scatterArgs | moreItems | moreIds | moreRests | oneItem | optional | optionalDefault
  deriving DecidableEq, Repr

def Rule.lhs : Rule → Nt
  | .program => .program
  | .noStatements | .moreStatements => .statements
  | .cond | .forList | .forRange | .while | .whileId | .fork | .forkId | .exprStmt
  | .break | .breakId | .continue | .continueId | .return | .return0 | .empty
  | .tryExcept | .tryFinally => .statement
  | .pushForList => .pushForList
  | .pushForRange => .pushForRange
  | .pushWhile => .pushWhile
  | .pushWhileId => .pushWhileId
  | .suspendScope => .suspendScope
  | .noElseifs | .moreElseifs => .elseifs
  | .noElse | .else => .elsepart
  | .oneExcept | .moreExcepts => .excepts
  | .checkExcepts => .checkExcepts
  | .except => .except
  | .noId | .someId => .optId
  | .integer | .float | .string | .object | .error | .id
  | .dollarProp | .prop | .propExpr | .verb | .dollarVerb | .verbExpr | .index | .range | .dollar
  | .assign | .scatterAssign | .call | .binary _ | .and | .or
  | .unaryMinus | .complement | .not | .paren | .list | .condExpr | .catch => .expr
  | .dollarsUp => .dollarsUp
  | .anyCode | .codes => .codes
  | .noDefault | .default => .default
  | .noArgs | .args => .arglist
  | .oneArg | .oneSplice | .moreArgs | .moreSplices => .neArglist
  | .scatterArgs | .moreItems | .moreIds | .moreRests | .oneItem => .scatter
  | .optional | .optionalDefault => .scatterItem

def binaryKind : BinaryOp → Kind
  | .plus => .chr '+' | .minus => .chr '-' | .times => .chr '*' | .divide => .chr '/'
  | .mod => .chr '%' | .exp => .chr '^'
  | .eq => .tEq | .ne => .tNe | .lt => .chr '<' | .le => .tLe | .gt => .chr '>' | .ge => .tGe
  | .in => .tIn
  | .bitor => .tBitor | .bitxor => .tBitxor | .bitand => .tBitand
  | .shl => .tShl | .shr => .tShr | .lshr => .tLshr

abbrev Sym := Grammar.Symbol Kind Nt

def t (k : Kind) : Sym := .token k
def c (ch : Char) : Sym := .token (.chr ch)
def n (nt : Nt) : Sym := .node nt

def Rule.rhs : Rule → List Sym
  | .program => [n .statements]
  | .noStatements => []
  | .moreStatements => [n .statements, n .statement]
  | .cond => [t .tIf, c '(', n .expr, c ')', n .statements, n .elseifs, n .elsepart, t .tEndif]
  | .forList => [t .tFor, t .tId, t .tIn, c '(', n .expr, c ')', n .pushForList,
      n .statements, t .tEndfor]
  | .forRange => [t .tFor, t .tId, t .tIn, c '[', n .expr, t .tTo, n .expr, c ']',
      n .pushForRange, n .statements, t .tEndfor]
  | .while => [t .tWhile, c '(', n .expr, c ')', n .pushWhile, n .statements, t .tEndwhile]
  | .whileId => [t .tWhile, t .tId, c '(', n .expr, c ')', n .pushWhileId, n .statements,
      t .tEndwhile]
  | .fork => [t .tFork, c '(', n .expr, c ')', n .suspendScope, n .statements, t .tEndfork]
  | .forkId => [t .tFork, t .tId, c '(', n .expr, c ')', n .suspendScope, n .statements,
      t .tEndfork]
  | .exprStmt => [n .expr, c ';']
  | .break => [t .tBreak, c ';']
  | .breakId => [t .tBreak, t .tId, c ';']
  | .continue => [t .tContinue, c ';']
  | .continueId => [t .tContinue, t .tId, c ';']
  | .return => [t .tReturn, n .expr, c ';']
  | .return0 => [t .tReturn, c ';']
  | .empty => [c ';']
  | .tryExcept => [t .tTry, n .statements, n .excepts, t .tEndtry]
  | .tryFinally => [t .tTry, n .statements, t .tFinally, n .statements, t .tEndtry]
  | .pushForList | .pushForRange | .pushWhile | .pushWhileId | .suspendScope => []
  | .noElseifs => []
  | .moreElseifs => [n .elseifs, t .tElseif, c '(', n .expr, c ')', n .statements]
  | .noElse => []
  | .else => [t .tElse, n .statements]
  | .oneExcept => [t .tExcept, n .except]
  | .moreExcepts => [n .excepts, t .tExcept, n .checkExcepts, n .except]
  | .checkExcepts => []
  | .except => [n .optId, c '(', n .codes, c ')', n .statements]
  | .noId => []
  | .someId => [t .tId]
  | .integer => [t .tInteger]
  | .float => [t .tFloat]
  | .string => [t .tString]
  | .object => [t .tObject]
  | .error => [t .tError]
  | .id => [t .tId]
  | .dollarProp => [c '$', t .tId]
  | .prop => [n .expr, c '.', t .tId]
  | .propExpr => [n .expr, c '.', c '(', n .expr, c ')']
  | .verb => [n .expr, c ':', t .tId, c '(', n .arglist, c ')']
  | .dollarVerb => [c '$', t .tId, c '(', n .arglist, c ')']
  | .verbExpr => [n .expr, c ':', c '(', n .expr, c ')', c '(', n .arglist, c ')']
  | .index => [n .expr, c '[', n .dollarsUp, n .expr, c ']']
  | .range => [n .expr, c '[', n .dollarsUp, n .expr, t .tTo, n .expr, c ']']
  | .dollar => [c '$']
  | .assign => [n .expr, c '=', n .expr]
  | .scatterAssign => [c '{', n .scatter, c '}', c '=', n .expr]
  | .call => [t .tId, c '(', n .arglist, c ')']
  | .binary op => [n .expr, t (binaryKind op), n .expr]
  | .and => [n .expr, t .tAnd, n .expr]
  | .or => [n .expr, t .tOr, n .expr]
  | .unaryMinus => [c '-', n .expr]
  | .complement => [c '~', n .expr]
  | .not => [c '!', n .expr]
  | .paren => [c '(', n .expr, c ')']
  | .list => [c '{', n .arglist, c '}']
  | .condExpr => [n .expr, c '?', n .expr, c '|', n .expr]
  | .catch => [c (Char.ofNat 96), n .expr, c '!', n .codes, n .default, c (Char.ofNat 39)]
  | .dollarsUp => []
  | .anyCode => [t .tAny]
  | .codes => [n .neArglist]
  | .noDefault => []
  | .default => [t .tArrow, n .expr]
  | .noArgs => []
  | .args => [n .neArglist]
  | .oneArg => [n .expr]
  | .oneSplice => [c '@', n .expr]
  | .moreArgs => [n .neArglist, c ',', n .expr]
  | .moreSplices => [n .neArglist, c ',', c '@', n .expr]
  | .scatterArgs => [n .neArglist, c ',', n .scatterItem]
  | .moreItems => [n .scatter, c ',', n .scatterItem]
  | .moreIds => [n .scatter, c ',', t .tId]
  | .moreRests => [n .scatter, c ',', c '@', t .tId]
  | .oneItem => [n .scatterItem]
  | .optional => [c '?', t .tId]
  | .optionalDefault => [c '?', t .tId, c '=', n .expr]

/-- Negation of a constant, or of what an expression returns. -/
def negate (x : Library) : Expr → Expr
  | .var (.int m) => .var (.int (-m))
  | .var (.float d) => .var (.float (x.neg d))
  | e => .unary .negate e

def oneStmt (st : Stmt) : Val := .stmts (Stmts.single st)

def callOf (functions : List Str) (name : Str) (args : ArgList) (s : PState) : Expr × PState :=
  let f := numberFuncByName functions name
  if f = maxFunc then
    (.call (numberFuncByName functions (ascii "call_function"))
        (.cons .normal (.var (.str name)) args),
      s.error "Unknown built-in function: " (some name))
  else (.call f args, s)

/-- The actions; `none` for values that the rule's symbols do not have. -/
def Rule.action (x : Library) (functions : List Str) :
    Rule → List Val → List Val → PState → Option (Val × PState)
  | .program, _, [.stmts ss], s => some (.stmts ss, s)
  | .noStatements, _, [], s => some (.stmts .nil, s)
  | .moreStatements, _, [.stmts ss, .stmts st], s => some (.stmts (ss.append st), s)
  | .cond, _, [_, _, .expr e, _, .stmts body, .arms arms, .stmts otherwise, _], s =>
    some (oneStmt (.cond (.cons e body arms) otherwise), s)
  | .forList, _, [_, .string w, _, _, .expr e, _, _, .stmts body, _], s =>
    let r := findId w s
    some (oneStmt (.list r.1 e body), popLoopName r.2)
  | .forRange, _, [_, .string w, _, _, .expr lo, _, .expr hi, _, _, .stmts body, _], s =>
    let r := findId w s
    some (oneStmt (.range r.1 lo hi body), popLoopName r.2)
  | .while, _, [_, _, .expr e, _, _, .stmts body, _], s =>
    some (oneStmt (.while none e body), popLoopName s)
  | .whileId, _, [_, .string w, _, .expr e, _, _, .stmts body, _], s =>
    let r := findId w s
    some (oneStmt (.while (some r.1) e body), popLoopName r.2)
  | .fork, _, [_, _, .expr e, _, _, .stmts body, _], s =>
    some (oneStmt (.fork none e body), resumeLoopScope s)
  | .forkId, _, [_, .string w, _, .expr e, _, _, .stmts body, _], s =>
    let r := findId w s
    some (oneStmt (.fork (some r.1) e body), resumeLoopScope r.2)
  | .exprStmt, _, [.expr e, _], s => some (oneStmt (.expr e), s)
  | .break, _, [_, _], s => some (oneStmt (.break none), checkLoopName none true s)
  | .breakId, _, [_, .string w, _], s =>
    let r := findId w (checkLoopName (some w) true s)
    some (oneStmt (.break (some r.1)), r.2)
  | .continue, _, [_, _], s => some (oneStmt (.continue none), checkLoopName none false s)
  | .continueId, _, [_, .string w, _], s =>
    let r := findId w (checkLoopName (some w) false s)
    some (oneStmt (.continue (some r.1)), r.2)
  | .return, _, [_, .expr e, _], s => some (oneStmt (.return (some e)), s)
  | .return0, _, [_, _], s => some (oneStmt (.return none), s)
  | .empty, _, [_], s => some (.stmts .nil, s)
  | .tryExcept, _, [_, .stmts body, .excepts arms, _], s =>
    some (oneStmt (.tryExcept body arms), s)
  | .tryFinally, _, [_, .stmts body, _, .stmts handler, _], s =>
    some (oneStmt (.tryFinally body handler), s)
  | .pushForList, _::_::_::_::.string w::_, [], s => some (.none, pushLoopName (some w) s)
  | .pushForRange, _::_::_::_::_::_::.string w::_, [], s =>
    some (.none, pushLoopName (some w) s)
  | .pushWhile, _, [], s => some (.none, pushLoopName none s)
  | .pushWhileId, _::_::_::.string w::_, [], s => some (.none, pushLoopName (some w) s)
  | .suspendScope, _, [], s => some (.none, suspendLoopScope s)
  | .noElseifs, _, [], s => some (.arms .nil, s)
  | .moreElseifs, _, [.arms arms, _, _, .expr e, _, .stmts body], s =>
    some (.arms (appendArms arms (.cons e body .nil)), s)
  | .noElse, _, [], s => some (.stmts .nil, s)
  | .else, _, [_, .stmts ss], s => some (.stmts ss, s)
  | .oneExcept, _, [_, .excepts arm], s => some (.excepts arm, s)
  | .moreExcepts, _, [.excepts arms, _, _, .excepts arm], s =>
    some (.excepts (appendExcepts arms arm), s)
  | .checkExcepts, _::.excepts arms::_, [], s => some (.none, Parse.checkExcepts arms s)
  | .except, _, [.optId none, _, .args cs, _, .stmts body], s =>
    some (.excepts (.cons none cs body .nil), s)
  | .except, _, [.optId (some w), _, .args cs, _, .stmts body], s =>
    let r := findId w s
    some (.excepts (.cons (some r.1) cs body .nil), r.2)
  | .noId, _, [], s => some (.optId none, s)
  | .someId, _, [.string w], s => some (.optId (some w), s)
  | .integer, _, [.integer m], s => some (.expr (.var (.int m)), s)
  | .float, _, [.real d], s => some (.expr (.var (.float d)), s)
  | .string, _, [.string str], s => some (.expr (.var (.str str)), s)
  | .object, _, [.object m], s => some (.expr (.var (.obj m)), s)
  | .error, _, [.error e], s => some (.expr (.var (.err e)), s)
  | .id, _, [.string w], s =>
    let r := findId w s
    some (.expr (.id r.1), r.2)
  | .dollarProp, _, [_, .string w], s =>
    some (.expr (.prop (.var (.obj 0)) (.var (.str w))), s)
  | .prop, _, [.expr e, _, .string w], s => some (.expr (.prop e (.var (.str w))), s)
  | .propExpr, _, [.expr e, _, _, .expr name, _], s => some (.expr (.prop e name), s)
  | .verb, _, [.expr e, _, .string w, _, .args a, _], s =>
    some (.expr (.verb e (.var (.str w)) a), s)
  | .dollarVerb, _, [_, .string w, _, .args a, _], s =>
    some (.expr (.verb (.var (.obj 0)) (.var (.str w)) a), s)
  | .verbExpr, _, [.expr e, _, _, .expr name, _, _, .args a, _], s =>
    some (.expr (.verb e name a), s)
  | .index, _, [.expr e, _, _, .expr i, _], s =>
    some (.expr (.index e i), {s with dollarsOk := s.dollarsOk-1})
  | .range, _, [.expr e, _, _, .expr lo, _, .expr hi, _], s =>
    some (.expr (.range e lo hi), {s with dollarsOk := s.dollarsOk-1})
  | .dollar, _, [_], s =>
    some (.expr .length,
      if s.dollarsOk = 0 then yyerror "Illegal context for `$' expression." s else s)
  | .assign, _, [.expr lhs, _, .expr rhs], s =>
    let r := checkAssign lhs s
    some (.expr (.asgn r.1 rhs), r.2)
  | .scatterAssign, _, [_, .scatter sc, _, _, .expr rhs], s =>
    some (.expr (.asgn (.scatter sc) rhs), vetScatter sc s)
  | .call, _, [.string w, _, .args a, _], s =>
    let r := callOf functions w a s
    some (.expr r.1, r.2)
  | .binary op, _, [.expr l, _, .expr r], s => some (.expr (.binary op l r), s)
  | .and, _, [.expr l, _, .expr r], s => some (.expr (.and l r), s)
  | .or, _, [.expr l, _, .expr r], s => some (.expr (.or l r), s)
  | .unaryMinus, _, [_, .expr e], s => some (.expr (negate x e), s)
  | .complement, _, [_, .expr e], s => some (.expr (.unary .complement e), s)
  | .not, _, [_, .expr e], s => some (.expr (.unary .not e), s)
  | .paren, _, [_, .expr e, _], s => some (.expr e, s)
  | .list, _, [_, .args a, _], s => some (.expr (.list a), s)
  | .condExpr, _, [.expr e, _, .expr a, _, .expr b], s => some (.expr (.cond e a b), s)
  | .catch, _, [_, .expr e, _, .args cs, .default d, _], s =>
    some (.expr (.catch e cs d), s)
  | .dollarsUp, _, [], s => some (.none, {s with dollarsOk := s.dollarsOk+1})
  | .anyCode, _, [_], s => some (.args .nil, s)
  | .codes, _, [.args a], s => some (.args a, s)
  | .noDefault, _, [], s => some (.default .none, s)
  | .default, _, [_, .expr e], s => some (.default (.some e), s)
  | .noArgs, _, [], s => some (.args .nil, s)
  | .args, _, [.args a], s => some (.args a, s)
  | .oneArg, _, [.expr e], s => some (.args (.cons .normal e .nil), s)
  | .oneSplice, _, [_, .expr e], s => some (.args (.cons .splice e .nil), s)
  | .moreArgs, _, [.args a, _, .expr e], s => some (.args (a.append (.cons .normal e .nil)), s)
  | .moreSplices, _, [.args a, _, _, .expr e], s =>
    some (.args (a.append (.cons .splice e .nil)), s)
  | .scatterArgs, _, [.args a, _, .scatter item], s =>
    let r := scatterFromArglist a s
    some (.scatter (addScatterItem r.1 item), r.2)
  | .moreItems, _, [.scatter sc, _, .scatter item], s => some (.scatter (addScatterItem sc item), s)
  | .moreIds, _, [.scatter sc, _, .string w], s =>
    let r := findId w s
    some (.scatter (addScatterItem sc (.cons .required r.1 .none .nil)), r.2)
  | .moreRests, _, [.scatter sc, _, _, .string w], s =>
    let r := findId w s
    some (.scatter (addScatterItem sc (.cons .rest r.1 .none .nil)), r.2)
  | .oneItem, _, [.scatter item], s => some (.scatter item, s)
  | .optional, _, [_, .string w], s =>
    let r := findId w s
    some (.scatter (.cons .optional r.1 .none .nil), r.2)
  | .optionalDefault, _, [_, .string w, _, .expr e], s =>
    let r := findId w s
    some (.scatter (.cons .optional r.1 (.some e) .nil), r.2)
  | _, _, _, _ => none

def rules (x : Library) (functions : List Str) : Rules Kind Nt Rule Val PState where
  lhs := Rule.lhs
  rhs := Rule.rhs
  action := Rule.action x functions

def startParse (version : DbVersion) : PState := ⟨builtinNames version, 0, [], []⟩

/-- `parse_list_as_program` accepts a list of strings as the program `ss`. -/
def Parses (x : Library) (functions : List Str) (code : List Str) (ss : Stmts) : Prop :=
  (tokens x currentVersion (startLexer code)).2.errors = [] ∧
    ∃ s, Derives (rules x functions) [] [n .program] (startParse currentVersion)
        (tokens x currentVersion (startLexer code)).1 [.stmts ss] s [] ∧ s.errors = []

end LambdaMoo.Parse
