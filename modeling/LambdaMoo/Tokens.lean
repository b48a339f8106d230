import LambdaMoo.Ast
import LambdaMoo.DbIo
import LambdaMoo.Grammar

/-!
# Tokens and keywords

The terminal symbols of the grammar with the union of values that the parser
keeps on its stack, and the perfect hash table in which a word is looked up.
The letters of a word count without their case.
-/

set_option autoImplicit false

namespace LambdaMoo.Parse
open LambdaMoo.DbIo

def DbVersion.num : DbVersion → ℕ
  | .prehistory => 0 | .exceptions => 1 | .breakCont => 2 | .float => 3 | .bfBugFixed => 4

/-- A token that is one ASCII character is `chr`. -/
inductive Kind where
  | chr (c : Char)
  | tChr | tInteger | tObject | tFloat | tString | tId | tError
  | tIf | tElse | tElseif | tEndif | tFor | tIn | tEndfor | tReturn | tFork | tEndfork
  | tWhile | tEndwhile | tTry | tEndtry | tExcept | tFinally | tAny | tBreak | tContinue
  | tTo | tArrow
  | tOr | tAnd | tEq | tNe | tLe | tGe | tBitor | tBitxor | tBitand | tShl | tShr | tLshr
  deriving DecidableEq, Repr

inductive Val where
  | none
  | chr (c : ℤ)
  | integer (n : Num)
  | object (n : Objid)
  | real (d : Fnum)
  | string (s : Str)
  | error (e : Err)
  | optId (id : Option Str)
  | expr (e : Expr)
  | default (e : OptExpr)
  | args (a : ArgList)
  | scatter (sc : Scatter)
  | stmts (ss : Stmts)
  | arms (a : CondArms)
  | excepts (a : ExceptArms)
  deriving DecidableEq, Repr

abbrev Token := Grammar.Token Kind Val

structure Keyword where
  name : String
  version : DbVersion
  token : Kind
  error : Err
  deriving DecidableEq, Repr

def key (name : String) (token : Kind) : Option Keyword := some ⟨name, .prehistory, token, .none⟩
def newKey (name : String) (version : DbVersion) (token : Kind) : Option Keyword :=
  some ⟨name, version, token, .none⟩
def errKey (name : String) (error : Err) : Option Keyword :=
  some ⟨name, .prehistory, .tError, error⟩

/-- `none` is an entry with the empty name, which no word equals. -/
def wordlist : List (Option Keyword) :=
  [none, none, none, key "for" .tFor, none, key "endif" .tEndif, key "endfor" .tEndfor,
    errKey "E_RANGE" .range, key "endwhile" .tEndwhile, errKey "E_RECMOVE" .recmove, none,
    errKey "E_TYPE" .type, some ⟨"E_FLOAT", .float, .tError, .float⟩,
    errKey "E_PROPNF" .propnf, none, errKey "E_DIV" .div, errKey "E_NONE" .none,
    errKey "E_VARNF" .varnf, errKey "E_VERBNF" .verbnf, none, none, key "return" .tReturn,
    key "if" .tIf, none, key "fork" .tFork, key "while" .tWhile,
    newKey "endtry" .exceptions .tEndtry, key "endfork" .tEndfork, errKey "E_INVIND" .invind,
    none, newKey "break" .breakCont .tBreak, newKey "except" .exceptions .tExcept,
    key "in" .tIn, errKey "E_INVARG" .invarg, none, none, errKey "E_NACC" .nacc,
    newKey "finally" .exceptions .tFinally, newKey "continue" .breakCont .tContinue,
    key "else" .tElse, none, key "elseif" .tElseif, errKey "E_QUOTA" .quota, none, none, none,
    errKey "E_PERM" .perm, none, newKey "try" .exceptions .tTry, none, none,
    errKey "E_ARGS" .args, none, newKey "ANY" .exceptions .tAny, none, none, none, none, none,
    none, none, none, none, errKey "E_MAXREC" .maxrec]

/-- The table `asso_values` at the letters, from `a` on; it is 64 everywhere else. -/
def assoLetters : List ℕ :=
  [10, 5, 20, 0, 0, 0, 5, 64, 20, 64, 20, 64, 35, 10, 64, 5, 25, 0, 35, 5, 64, 10, 0, 64, 20, 64]

def assoValue (c : Byte) : ℕ :=
  if 97 ≤ (cmap c).toNat then (assoLetters[(cmap c).toNat-97]?).getD 64 else 64

def hash (word : Str) : ℕ :=
  word.length+(if word.length ≤ 2 then 0 else assoValue (word[2]?.getD 0))
    +assoValue (word[0]?.getD 0)+assoValue (word[word.length-1]?.getD 0)

def findKeyword (word : Str) : Option Keyword :=
  if 2 ≤ word.length ∧ word.length ≤ 9 then
    match wordlist[hash word]? with
    | some (some k) => if word.map cmap = (ascii k.name).map cmap then some k else none
    | _ => none
  else none

def errorName : Err → String
  | .none => "E_NONE" | .type => "E_TYPE" | .div => "E_DIV" | .perm => "E_PERM"
  | .propnf => "E_PROPNF" | .verbnf => "E_VERBNF" | .varnf => "E_VARNF" | .invind => "E_INVIND"
  | .recmove => "E_RECMOVE" | .maxrec => "E_MAXREC" | .range => "E_RANGE" | .args => "E_ARGS"
  | .nacc => "E_NACC" | .invarg => "E_INVARG" | .quota => "E_QUOTA" | .float => "E_FLOAT"

/-- Every error name is a keyword that names that error. -/
theorem findKeyword_errorName (e : Err) :
    ∃ k, findKeyword (ascii (errorName e)) = some k ∧ k.token = .tError ∧ k.error = e ∧
      DbVersion.num k.version ≤ DbVersion.num currentVersion := by
  cases e <;> exact ⟨_, rfl, rfl, rfl, by decide⟩

end LambdaMoo.Parse
