import LambdaMoo.ObjectTable
import LambdaMoo.Scanf

/-!
# Writing and reading the database file

The file has the players, the objects one after the other, and then the
programs of the verbs, each under the number of its object and the position of
its verb. The formats of programs, of the task queue and of the connections
are those of other modules of the server, which come in as `Routines`.
-/

set_option autoImplicit false

namespace LambdaMoo.DbFile
open LambdaMoo.DbIo

structure Routines (P : Type) where
  others : Others
  readProgram : DbVersion → Input → Result (Option P × Input)
  /-- The lines that `unparse_program` hands to its receiver. -/
  unparse : P → List Str
  readTaskQueue : Input → Result (Bool × Input)
  readActiveConnections : Input → Result (Bool × Input)

/-- What the server has in memory. `upper` is the unused half of the union of each error in each
slot of each object; `tasks` and `connections` are the texts of the last two parts of the file. -/
structure Image (P : Type) where
  objects : Table P
  users : List Objid
  upper : Objid → ℕ → List ℕ → BitVec 32
  tasks : List Byte
  connections : List Byte

/-- What a load leaves: the objects, the players and what the validation reported. -/
structure Loaded (P : Type) where
  objects : Table P
  users : List Objid
  log : List Report

/-- Why a load gives up. -/
inductive Refusal where
  | unknownVersion (v : ℤ)
  | badHeader
  | badObject (i : ℕ)
  | badHierarchies
  | badProgramHeader (i : ℕ)
  | noObject (oid : Objid) (vnum : ℤ)
  | noVerb (oid : Objid) (vnum : ℤ)
  | unparsable (oid : Objid) (vnum : ℤ)
  | badTaskQueue
  | badConnections
  deriving DecidableEq, Repr

def headerFormat : List Directive := format "** LambdaMOO Database, Format Version %u **\n"
def countsFormat : List Directive := format "%d\n%d\n%d\n%d\n"
def objidFormat : List Directive := format "#%d"
def objectFormat : List Directive := format "#%d\n"
def recycledFormat : List Directive := format "#%d recycled\n"
def programFormat : List Directive := format "#%d:%d\n"

def versionNum : DbVersion → ℤ
  | .prehistory => 0 | .exceptions => 1 | .breakCont => 2 | .float => 3 | .bfBugFixed => 4

/-- The version with a number, if `check_version` accepts it. -/
def versionOf (z : ℤ) : Option DbVersion :=
  if z = 0 then some .prehistory
  else if z = 1 then some .exceptions
  else if z = 2 then some .breakCont
  else if z = 3 then some .float
  else if z = 4 then some .bfBugFixed
  else none

section
variable {P : Type}

def writeVerbdef (v : Verbdef P) : List Byte :=
  dbioWriteString v.name.str ++ dbioWriteNum v.owner ++ dbioWriteNum (v.perms.signExtend 64) ++
    dbioWriteNum (v.prep.signExtend 64)

def writePropdef (p : Propdef) : List Byte := dbioWriteString p.name.str

def writePropval (o : Others) (upper : List ℕ → BitVec 32) (p : Pval) : List Byte :=
  dbioWriteVar o upper p.var ++ dbioWriteNum p.owner ++ dbioWriteNum (p.perms.signExtend 64)

def writeCount (n : ℕ) : List Byte := dbioWriteNum (BitVec.ofNat 64 n)

/-- The slots that `nprops` counts; the server reads past the end of a shorter array. -/
def propvals (o : Object P) (nprops : ℕ) : Result (List Pval) :=
  if nprops ≤ o.propval.length then .ok (o.propval.take nprops)
  else .error (.undefined "propval out of bounds")

def writeObject (r : Routines P) (db : Image P) (oid : Objid) : Result (List Byte) :=
  match db.objects.find oid with
  | none => .ok (printf recycledFormat [oid.toInt])
  | some o => do
    let nprops ← db.objects.dbprivCountProperties oid
    let slots ← propvals o nprops
    return printf objectFormat [oid.toInt] ++ dbioWriteString o.name.str ++ dbioWriteString [] ++
      dbioWriteNum (o.flags.signExtend 64) ++ dbioWriteNum o.owner ++ dbioWriteNum o.location ++
      dbioWriteNum o.contents ++ dbioWriteNum o.next ++ dbioWriteNum o.parent ++
      dbioWriteNum o.child ++ dbioWriteNum o.sibling ++
      writeCount o.verbdefs.length ++ o.verbdefs.flatMap writeVerbdef ++
      writeCount o.propdefs.length ++ o.propdefs.flatMap writePropdef ++
      writeCount nprops ++
      slots.zipIdx.flatMap fun s => writePropval r.others (db.upper oid s.2) s.1

def dbioWriteProgram (r : Routines P) (p : P) : List Byte :=
  (r.unparse p).flatMap dbioWriteString ++ printf (format ".\n") []

/-- The programs of an object's verbs, from the one at position `vcount` on. -/
def writeVerbs (r : Routines P) (oid : Objid) : ℕ → List (Verbdef P) → List Byte
  | _, [] => []
  | vcount, v::vs =>
    (match v.program with
      | some p => printf programFormat [oid.toInt, vcount] ++ dbioWriteProgram r p
      | none => []) ++ writeVerbs r oid (vcount+1) vs

def writePrograms (r : Routines P) (db : Image P) : List Byte :=
  db.objects.objids.flatMap fun oid =>
    match db.objects.find oid with
    | some o => writeVerbs r oid 0 o.verbdefs
    | none => []

def nprogs (t : Table P) : ℕ :=
  (t.objids.map fun oid =>
    match t.find oid with
    | some o => o.verbdefs.countP (·.program.isSome)
    | none => 0).sum

/-- What is written as long as the file takes it. -/
def writeDbFile (r : Routines P) (db : Image P) : Result (List Byte) := do
  let objects ← db.objects.objids.mapM (writeObject r db)
  return printf headerFormat [versionNum currentVersion] ++
    printf countsFormat [db.objects.length, nprogs db.objects, 0, db.users.length] ++
    db.users.flatMap dbioWriteNum ++ objects.flatten ++ writePrograms r db ++
    db.tasks ++ db.connections

/-- The string that is in memory for the bytes read. -/
def strIntern (s : Str) : CStr where
  str := cstr s
  noNul h := by simpa using (List.mem_takeWhile_imp h)

def readVerbdef (f : Input) : Result (Verbdef P × Input) := do
  let (name, f) ← dbioReadString f
  let (owner, f) ← dbioReadNum f
  let (perms, f) ← dbioReadNum f
  let (prep, f) ← dbioReadNum f
  .ok (⟨strIntern name, owner, perms.truncate 16, prep.truncate 16, none⟩, f)

def readPropdef (f : Input) : Result (Propdef × Input) := do
  let (name, f) ← dbioReadString f
  .ok (dbprivNewPropdef (strIntern name), f)

def readPropval (o : Others) (f : Input) : Result (Pval × Input) := do
  let (var, f) ← dbioReadVar o f
  let (owner, f) ← dbioReadNum f
  let (perms, f) ← dbioReadNum f
  .ok (⟨var, owner, perms.truncate 16⟩, f)

/-- As many elements as the count before them says, into an array of that size. -/
def readArray {α : Type} (read : Input → Result (α × Input)) (f : Input) :
    Result (List α × Input) := do
  let (i, f) ← dbioReadInt f
  if i < 0 then .error (.undefined "array of a negative size")
  else readMany read i.toNat f

/-- The fields of an object that is there. -/
def readFields (r : Routines P) (f : Input) : Result (Object P × Input) := do
  let (name, f) ← dbioReadString f
  let (_, f) ← dbioReadString f
  let (flags, f) ← dbioReadNum f
  let (owner, f) ← dbioReadNum f
  let (location, f) ← dbioReadNum f
  let (contents, f) ← dbioReadNum f
  let (next, f) ← dbioReadNum f
  let (parent, f) ← dbioReadNum f
  let (child, f) ← dbioReadNum f
  let (sibling, f) ← dbioReadNum f
  let (nverbdefs, f) ← dbioReadInt f
  let (verbdefs, f) ← readMany readVerbdef nverbdefs.toNat f
  let (propdefs, f) ← readArray readPropdef f
  let (propval, f) ← readArray (readPropval r.others) f
  .ok (⟨strIntern name, flags.truncate 32, owner, location, contents, next, parent, child, sibling,
    verbdefs, propdefs, propval⟩, f)

/-- The next object, which must have the next number. -/
def readObject (r : Routines P) (i : ℕ) (t : Table P) (f : Input) :
    Result (Except Refusal (Table P) × Input) := do
  let (ids, f) ← scanf objidFormat f
  if ids ≠ [(t.length:ℤ)] then .ok (.error (.badObject i), f)
  else do
    let (s, f) ← fgets 20 f
    if s = printf (format " recycled\n") [] then .ok (.ok (t ++ [none]), f)
    else if s ≠ printf (format "\n") [] then .ok (.error (.badObject i), f)
    else do
      let (o, f) ← readFields r f
      .ok (.ok (t ++ [some o]), f)

/-- A loop that counts from `i` and stops at the first failure. -/
def readLoop {σ : Type} (step : ℕ → σ → Input → Result (Except Refusal σ × Input)) :
    ℕ → ℕ → σ → Input → Result (Except Refusal σ × Input)
  | 0, _, s, f => .ok (.ok s, f)
  | n+1, i, s, f => do
    let (x, f) ← step i s f
    match x with
    | .error e => .ok (.error e, f)
    | .ok s => readLoop step n (i+1) s f

/-- The verb at a position that counts from one. -/
def dbFindIndexedVerb (o : Object P) (index : BitVec 32) : Option ℕ :=
  (List.range o.verbdefs.length).find? fun i => BitVec.ofNat 32 (i+1) = index

def dbSetVerbProgram (t : Table P) (oid : Objid) (i : ℕ) (p : P) : Table P :=
  t.modify oid fun o =>
    {o with verbdefs := o.verbdefs.modify i fun v => {v with program := some p}}

/-- The next program, for a verb that is already there. -/
def readVerbProgram (r : Routines P) (version : DbVersion) (i : ℕ) (t : Table P) (f : Input) :
    Result (Except Refusal (Table P) × Input) := do
  let (ids, f) ← scanf programFormat f
  match ids with
  | [z, vnum] =>
    let oid := BitVec.ofInt 64 z
    match t.find oid with
    | none => .ok (.error (.noObject oid vnum), f)
    | some o =>
      match dbFindIndexedVerb o (BitVec.ofInt 32 (vnum+1)) with
      | none => .ok (.error (.noVerb oid vnum), f)
      | some k => do
        let (p, f) ← r.readProgram version f
        match p with
        | none => .ok (.error (.unparsable oid vnum), f)
        | some p => .ok (.ok (dbSetVerbProgram t oid k p), f)
  | _ => .ok (.error (.badProgramHeader i), f)

/-- The players; `new_list` takes an `int`. -/
def readUsers (nusers : ℤ) (f : Input) : Result (List Objid × Input) :=
  if nusers < 0 ∨ 2^31 ≤ nusers then .error (.undefined "new_list of a bad size")
  else readMany dbioReadNum nusers.toNat f

/-- The last two parts of the file. -/
def readTail (r : Routines P) (db : Loaded P) (f : Input) :
    Result (Except Refusal (Loaded P) × Input) := do
  let (ok, f) ← r.readTaskQueue f
  if !ok then .ok (.error .badTaskQueue, f)
  else do
    let (ok, f) ← r.readActiveConnections f
    if !ok then .ok (.error .badConnections, f)
    else .ok (.ok db, f)

def readBody (r : Routines P) (version : DbVersion) (f : Input) :
    Result (Except Refusal (Loaded P) × Input) := do
  let (counts, f) ← scanf countsFormat f
  match counts with
  | [nobjs, nprogs, _, nusers] => do
    let (users, f) ← readUsers nusers f
    let (x, f) ← readLoop (readObject r) nobjs.toNat 0 [] f
    match x with
    | .error e => .ok (.error e, f)
    | .ok t => do
      let (sound, v) ← validateHierarchies t
      if !sound then .ok (.error .badHierarchies, f)
      else do
        let (x, f) ← readLoop (readVerbProgram r version) nprogs.toNat 1 v.objects f
        match x with
        | .error e => .ok (.error e, f)
        | .ok t => readTail r ⟨t, users, v.log⟩ f
  | _ => .ok (.error .badHeader, f)

def readDbFile (r : Routines P) (f : Input) : Result (Except Refusal (Loaded P) × Input) := do
  let (vs, f) ← scanf headerFormat f
  let z := match vs with
    | [z] => z
    | _ => versionNum .prehistory
  match versionOf z with
  | none => .ok (.error (.unknownVersion z), f)
  | some version => readBody r version {f with version := version}

end
end LambdaMoo.DbFile
