import LambdaMoo.Values
import LambdaMoo.Decimal

/-!
# Reading and writing values in the database file

The input is the part of the file that is still unread, with the position of
its first byte. `dbio_read_string` reads through a static buffer, which keeps
its contents when `fgets` finds the end of the file. A local buffer that
`fgets` leaves unset holds nothing that C defines.
-/

set_option autoImplicit false

namespace LambdaMoo.DbIo
open LambdaMoo.Decimal

inductive DbVersion where
  | prehistory | exceptions | breakCont | float | bfBugFixed
  deriving DecidableEq, Repr

def currentVersion : DbVersion := .bfBugFixed

/-- What the reader reports with `errlog`, with the file position it prints. -/
inductive Complaint where
  | badNumber (s : Str) (pos : ℕ)
  | unknownType (l : ℤ) (pos : ℕ)
  deriving DecidableEq, Repr

structure Input where
  rest : List Byte
  pos : ℕ
  buffer : Str
  log : List Complaint
  version : DbVersion

def Input.advance (f : Input) (n : ℕ) : Input :=
  {f with rest := f.rest.drop n, pos := f.pos+n}

def Input.complain (f : Input) (c : Complaint) : Input := {f with log := f.log ++ [c]}

/-- What `fgets` takes from the file: at most `n` bytes, and none after a newline. -/
def line : ℕ → List Byte → List Byte
  | 0, _ => []
  | _, [] => []
  | n+1, b::bs => if b = 10 then [b] else b::line n bs

/-- The C string at the start of some bytes. -/
def cstr (s : List Byte) : Str := s.takeWhile (· ≠ 0)

/-- `fgets` into a local buffer of the given size. -/
def fgets (size : ℕ) (f : Input) : Result (Str × Input) :=
  if f.rest = [] then .error (.undefined "unset buffer at end of file")
  else
    let s := line (size-1) f.rest
    .ok (cstr s, f.advance s.length)

def isspace (b : Byte) : Bool := b = 32 || (9 ≤ b.toNat && b.toNat ≤ 13)

def clamp (z : ℤ) : Num :=
  if z < -2^63 then BitVec.ofInt 64 (-2^63)
  else if 2^63 ≤ z then BitVec.ofInt 64 (2^63-1)
  else BitVec.ofInt 64 z

def sign : Str → Bool × Str
  | 45::u => (true, u)
  | 43::u => (false, u)
  | u => (false, u)

/-- `strtoll` in base ten: the value and the text the end pointer is left at. -/
def strtoll (s : Str) : Num × Str :=
  let t := sign (s.dropWhile isspace)
  if t.2.head?.any isDigit then
    let r := scan 0 t.2
    (clamp (if t.1 then -(r.1:ℤ) else r.1), r.2)
  else (0, s)

def dbioReadNum (f : Input) : Result (Num × Input) := do
  let (s, f) ← fgets 22 f
  let r := strtoll s
  if s.head?.any isspace ∨ r.2.head? ≠ some 10 then
    .ok (r.1, f.complain (.badNumber s f.pos))
  else .ok (r.1, f)

/-- The same number as a C `int`. -/
def dbioReadInt (f : Input) : Result (ℤ × Input) := do
  let (n, f) ← dbioReadNum f
  .ok ((n.truncate 32).toInt, f)

/-- `fgets` into the static buffer of 1024 bytes. -/
def Input.fill (f : Input) : Input :=
  if f.rest = [] then f
  else
    let s := line 1023 f.rest
    {f.advance s.length with buffer := cstr s}

/-- The loop of `dbio_read_string` from `try_again`, with the stream so far. -/
def tryAgain : ℕ → Str → Input → Result (Str × Input)
  | 0, _, _ => .error .outOfFuel
  | fuel+1, str, f =>
    let g := f.fill
    if g.buffer.length = 1023 ∧ g.buffer.getLast? ≠ some 10 then
      tryAgain fuel (str ++ g.buffer) g
    else if g.buffer = [] then .error (.undefined "buffer[-1]")
    else if g.buffer.getLast? = some 10 then
      .ok (str ++ g.buffer.dropLast, {g with buffer := g.buffer.dropLast})
    else .ok (str ++ g.buffer, g)

def dbioReadString (f : Input) : Result (Str × Input) := tryAgain (f.rest.length+1) [] f

/-- The type as the file has it, without the flag of the types with external storage. -/
def dbType : VarType → ℕ
  | .int => 0 | .obj => 1 | .str => 2 | .err => 3 | .list => 4 | .clear => 5 | .none => 6
  | .catch => 7 | .finally => 8 | .float => 9 | .waif => 10

def typeComplexFlag : ℕ := 0x80
def typeDbMask : ℕ := 0x7f
def typeAny : ℤ := -1

/-- The type as the server has it in memory. -/
def memType : VarType → ℕ
  | .str => dbType .str ||| typeComplexFlag
  | .list => dbType .list ||| typeComplexFlag
  | .waif => dbType .waif ||| typeComplexFlag
  | t => dbType t

def errCode : Err → ℕ
  | .none => 0 | .type => 1 | .div => 2 | .perm => 3 | .propnf => 4 | .verbnf => 5
  | .varnf => 6 | .invind => 7 | .recmove => 8 | .maxrec => 9 | .range => 10 | .args => 11
  | .nacc => 12 | .invarg => 13 | .quota => 14 | .float => 15

def errs : List Err :=
  [.none, .type, .div, .perm, .propnf, .verbnf, .varnf, .invind,
   .recmove, .maxrec, .range, .args, .nacc, .invarg, .quota, .float]

/-- The error of a union whose other half is not used. -/
def errOf (n : Num) : Result Var :=
  match errs[(n.truncate 32).toNat]? with
  | some e => .ok (.err e)
  | none => .error (.undefined "error code")

/-- The routines for the two kinds of value with a format of their own. -/
structure Others where
  readFloat : Input → Result (Fnum × Input)
  writeFloat : Fnum → List Byte
  readWaif : Input → Result (Var × Input)
  writeWaif : WaifRef → List Byte

def readMany {α : Type} (read : Input → Result (α × Input)) : ℕ → Input → Result (List α × Input)
  | 0, f => .ok ([], f)
  | n+1, f => do
    let (v, f) ← read f
    let (vs, f) ← readMany read n f
    .ok (v::vs, f)

def dbioReadList (read : Input → Result (Var × Input)) (f : Input) : Result (Var × Input) := do
  let (l, f) ← dbioReadInt f
  if l < 0 then .error (.undefined "new_list of a negative size")
  else do
    let (vs, f) ← readMany read l.toNat f
    .ok (.list vs, f)

/-- The value that follows the type `l`; `read` reads the elements of a list. -/
def dbioReadRest (o : Others) (read : Input → Result (Var × Input)) (l : ℤ) (f : Input) :
    Result (Var × Input) :=
  if l = 5 then .ok (.clear, f)
  else if l = 6 then .ok (.none, f)
  else if l = 2 then do
    let (s, f) ← dbioReadString f
    .ok (.str s, f)
  else if l = 1 then do
    let (n, f) ← dbioReadNum f
    .ok (.obj n, f)
  else if l = 3 then do
    let (n, f) ← dbioReadNum f
    let e ← errOf n
    .ok (e, f)
  else if l = 0 then do
    let (n, f) ← dbioReadNum f
    .ok (.int n, f)
  else if l = 7 then do
    let (n, f) ← dbioReadNum f
    .ok (.catch n, f)
  else if l = 8 then do
    let (n, f) ← dbioReadNum f
    .ok (.finally n, f)
  else if l = 9 then do
    let (d, f) ← o.readFloat f
    .ok (.float d, f)
  else if l = 4 then dbioReadList read f
  else if l = 10 then o.readWaif f
  else .ok (zero, f.complain (.unknownType l f.pos))

def oldType (version : DbVersion) (l : ℤ) : ℤ :=
  if l = typeAny ∧ version = .prehistory then dbType .none else l

def readVar (o : Others) : ℕ → Input → Result (Var × Input)
  | 0, _ => .error .outOfFuel
  | fuel+1, f => do
    let (l, f) ← dbioReadInt f
    dbioReadRest o (readVar o fuel) (oldType f.version l) f

/-- Every call reads at least one byte, so the bytes left bound the nesting. -/
def dbioReadVar (o : Others) (f : Input) : Result (Var × Input) :=
  readVar o (f.rest.length+1) f

def dbioWriteNum (n : Num) : List Byte := print n.toInt ++ [10]

def dbioWriteString (s : Str) : List Byte := s ++ [10]

/-- The 64 bits the union of an error holds: `v.err` sets the lower half only. -/
def errNum (upper : BitVec 32) (e : Err) : Num := upper ++ BitVec.ofNat 32 (errCode e)

def dbioWriteType (t : VarType) : List Byte :=
  dbioWriteNum (BitVec.ofNat 64 (memType t &&& typeDbMask))

mutual
/-- `upper` is the unused half of the union, for the error at each place of the value. -/
def dbioWriteVar (o : Others) (upper : List ℕ → BitVec 32) : Var → List Byte
  | .clear => dbioWriteType .clear
  | .none => dbioWriteType .none
  | .str s => dbioWriteType .str ++ dbioWriteString s
  | .obj n => dbioWriteType .obj ++ dbioWriteNum n
  | .err e => dbioWriteType .err ++ dbioWriteNum (errNum (upper []) e)
  | .int n => dbioWriteType .int ++ dbioWriteNum n
  | .catch n => dbioWriteType .catch ++ dbioWriteNum n
  | .finally n => dbioWriteType .finally ++ dbioWriteNum n
  | .float d => dbioWriteType .float ++ o.writeFloat d
  | .list vs =>
    dbioWriteType .list ++ dbioWriteNum (BitVec.ofNat 64 vs.length) ++ dbioWriteVars o upper vs
  | .waif w => dbioWriteType .waif ++ o.writeWaif w
/-- Some values one after the other. -/
def dbioWriteVars (o : Others) (upper : List ℕ → BitVec 32) : List Var → List Byte
  | [] => []
  | v::vs => dbioWriteVar o (fun p => upper (vs.length::p)) v ++ dbioWriteVars o upper vs
end

mutual
/-- Neither a float nor a waif at any depth; strings that the file can hold; and
no list longer than `new_list`, whose argument is an `int`, can make. -/
def Plain : Var → Prop
  | .str s => 0 ∉ s ∧ 10 ∉ s
  | .list vs => vs.length < 2^31 ∧ PlainList vs
  | .float _ | .waif _ => False
  | .int _ | .obj _ | .err _ | .clear | .none | .catch _ | .finally _ => True
def PlainList : List Var → Prop
  | [] => True
  | v::vs => Plain v ∧ PlainList vs
end

end LambdaMoo.DbIo
