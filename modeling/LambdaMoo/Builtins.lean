import Mathlib.Data.List.TakeWhile
import LambdaMoo.Objects
import LambdaMoo.Verbs

/-!
# The built-in functions on verbs and properties

The checks that come before a change: of a verb's or a property's description,
of the object, and of the programmer's rights. The types of the arguments are
checked by the caller. What the preposition table makes of a word and whether
numeric names are on are parameters, as is the address of what is allocated.
-/

set_option autoImplicit false

namespace LambdaMoo.Database

/-- The string of a value as C sees it. -/
def cstr (s : Str) : CStr :=
  ⟨s.takeWhile (· ≠ 0), fun h => by simpa using List.mem_takeWhile_imp h⟩

/-- One letter of the flags of a verb, in either case. -/
def verbFlag (flags : VerbPerms) (c : Byte) : Option VerbPerms :=
  if cmap c = 114 then some { flags with read := true }
  else if cmap c = 119 then some { flags with write := true }
  else if cmap c = 120 then some { flags with exec := true }
  else if cmap c = 100 then some { flags with debug := true }
  else none

def propFlag (flags : PropPerms) (c : Byte) : Option PropPerms :=
  if cmap c = 114 then some { flags with read := true }
  else if cmap c = 119 then some { flags with write := true }
  else if cmap c = 99 then some { flags with chown := true }
  else none

/-- The owner, the flags and the names, or the error. -/
def validateVerbInfo (db : Db) (v : Var) : Except Err (ℤ × VerbPerms × CStr) :=
  match v with
  | .list [.obj owner, .str perms, .str names] =>
    if !db.valid owner.toInt then .error .invarg
    else match (cstr perms).str.foldlM verbFlag ⟨false, false, false, false⟩ with
      | none => .error .invarg
      | some flags =>
        let rest := names.dropWhile (· = 32)
        if (cstr rest).str = [] then .error .invarg else .ok (owner.toInt, flags, cstr rest)
  | _ => .error .type

def matchArgSpec (s : Str) : Option ℕ :=
  if mystrcasecmp s (ascii "none") = 0 then some 0
  else if mystrcasecmp s (ascii "any") = 0 then some 1
  else if mystrcasecmp s (ascii "this") = 0 then some 2
  else none

def PREP_ANY : ℤ := -2
def PREP_NONE : ℤ := -1

def matchPrepSpec (dbMatchPrep : Str → ℤ) (s : Str) : Option ℤ :=
  if mystrcasecmp s (ascii "none") = 0 then some PREP_NONE
  else if mystrcasecmp s (ascii "any") = 0 then some PREP_ANY
  else if dbMatchPrep s ≠ PREP_NONE then some (dbMatchPrep s) else none

def validateVerbArgs (dbMatchPrep : Str → ℤ) (v : Var) : Except Err (ℕ × ℤ × ℕ) :=
  match v with
  | .list [.str dobj, .str prep, .str iobj] =>
    match matchArgSpec dobj, matchPrepSpec dbMatchPrep prep, matchArgSpec iobj with
    | some d, some p, some i => .ok (d, p, i)
    | _, _, _ => .error .invarg
  | _ => .error .type

def validateVerbDescriptor (desc : Var) : Err :=
  match desc with
  | .str _ => .none
  | .int num => if num.toInt ≤ 0 then .invarg else .none
  | _ => .type

/-- The digits of a number, to the end of the string. -/
def digits : Str → ℤ → Option ℤ
  | [], n => some n
  | c::s, n => if 48 ≤ c.toNat ∧ c.toNat ≤ 57 then digits s (n*10+(c.toNat-48)) else none

/-- `strtol` on all of a string that starts with no space; the empty string is a zero. -/
def numericName (s : Str) : Option ℤ :=
  match s with
  | [] => some 0
  | 45::c::s => (digits (c::s) 0).map fun n => -n
  | 43::c::s => digits (c::s) 0
  | c::s => digits (c::s) 0

/-- A number as `strtol` limits it and an `int` holds it. -/
def strtolInt (n : ℤ) : ℤ := (BitVec.ofInt 32 (max (-2^63) (min (2^63-1) n))).toInt

/-- `db_find_defined_verb`. -/
def findDefinedVerb (o : Object) (vname : CStr) (allowNumbers : Bool) : Option Verbdef :=
  let num := if allowNumbers then ((numericName vname.str).map strtolInt).getD (-1) else -1
  (o.verbdefs.zipIdx.find? fun v => (v.2 : ℤ) = num ∨ verbcasecmp v.1.name.str vname.str).map
    Prod.fst

/-- `db_find_indexed_verb`, whose index is an unsigned int. -/
def findIndexedVerb (o : Object) (index : BitVec 32) : Option Verbdef :=
  if index.toNat = 0 then none else o.verbdefs[index.toNat-1]?

def findDescribedVerb (numericNames : Bool) (o : Object) (desc : Var) : Option Verbdef :=
  match desc with
  | .int num => findIndexedVerb o (num.setWidth 32)
  | .str s => findDefinedVerb o (cstr s) numericNames
  | _ => none

/-- The owner, the flags and the new name, or the error. -/
def validatePropInfo (db : Db) (v : Var) : Except Err (ℤ × PropPerms × Option Str) :=
  let checked (owner : Objid) (perms : Str) (name : Option Str) :=
    if !db.valid owner.toInt then .error .invarg
    else match (cstr perms).str.foldlM propFlag ⟨false, false, false⟩ with
      | none => .error .invarg
      | some flags => .ok (owner.toInt, flags, name)
  match v with
  | .list [.obj owner, .str perms] => checked owner perms none
  | .list [.obj owner, .str perms, .str name] => checked owner perms (some name)
  | _ => .error .type

namespace Db

def verbAllows (db : Db) (v : Verbdef) (progr : ℤ) (flag : Bool) : Bool :=
  flag || progr == v.owner || db.isWizard progr

def propertyAllows (db : Db) (pv : Pval) (progr : ℤ) (flag : Bool) : Bool :=
  flag || progr == pv.owner || db.isWizard progr

def bfAddVerb (dbMatchPrep : Str → ℤ) (ptr : ℕ) (db : Db) (oid : ℤ) (info args : Var)
    (progr : ℤ) : Result (Stage × Db) :=
  match validateVerbInfo db info with
  | .error e => .ok (.fails e, db)
  | .ok (owner, flags, names) =>
    match validateVerbArgs dbMatchPrep args with
    | .error e => .ok (.fails e, db)
    | .ok (dobj, prep, iobj) =>
      match db.find oid with
      | none => .ok (.fails .invarg, db)
      | some o =>
        if !db.objectAllows o progr o.flags.write || (progr ≠ owner && !db.isWizard progr) then
          .ok (.fails .perm, db)
        else .ok (.done (.int (BitVec.ofNat 64 (o.verbdefs.length+1))),
          db.addVerb oid ⟨ptr, names, owner, flags, dobj, prep, iobj, none⟩)

def bfDeleteVerb (numericNames : Bool) (db : Db) (oid : ℤ) (desc : Var) (progr : ℤ) :
    Result (Stage × Db) :=
  if validateVerbDescriptor desc ≠ .none then .ok (.fails (validateVerbDescriptor desc), db)
  else match db.find oid with
    | none => .ok (.fails .invarg, db)
    | some o =>
      if !db.objectAllows o progr o.flags.write then .ok (.fails .perm, db)
      else match findDescribedVerb numericNames o desc with
        | none => .ok (.fails .verbnf, db)
        | some v => do return (.done zero, ← db.deleteVerb oid v.ptr)

def bfSetVerbInfo (numericNames : Bool) (db : Db) (oid : ℤ) (desc info : Var) (progr : ℤ) :
    Result (Stage × Db) :=
  if validateVerbDescriptor desc ≠ .none then .ok (.fails (validateVerbDescriptor desc), db)
  else match db.find oid with
    | none => .ok (.fails .invarg, db)
    | some o =>
      match validateVerbInfo db info with
      | .error e => .ok (.fails e, db)
      | .ok (newOwner, newFlags, newNames) =>
        match findDescribedVerb numericNames o desc with
        | none => .ok (.fails .verbnf, db)
        | some v =>
          if !db.verbAllows v progr v.perms.write ||
              (!db.isWizard progr && v.owner ≠ newOwner) then .ok (.fails .perm, db)
          else .ok (.done zero, ((db.setVerbOwner oid v.ptr newOwner).setVerbFlags oid v.ptr
            newFlags).setVerbNames oid v.ptr newNames)

def bfSetVerbArgs (dbMatchPrep : Str → ℤ) (numericNames : Bool) (db : Db) (oid : ℤ)
    (desc args : Var) (progr : ℤ) : Result (Stage × Db) :=
  if validateVerbDescriptor desc ≠ .none then .ok (.fails (validateVerbDescriptor desc), db)
  else match db.find oid with
    | none => .ok (.fails .invarg, db)
    | some o =>
      match validateVerbArgs dbMatchPrep args with
      | .error e => .ok (.fails e, db)
      | .ok (dobj, prep, iobj) =>
        match findDescribedVerb numericNames o desc with
        | none => .ok (.fails .verbnf, db)
        | some v =>
          if !db.verbAllows v progr v.perms.write then .ok (.fails .perm, db)
          else .ok (.done zero, db.setVerbArgSpecs oid v.ptr dobj prep iobj)

def bfAddProp (db : Db) (oid : ℤ) (pname : Name) (value info : Var) (progr : ℤ) :
    Result (Stage × Db) :=
  match validatePropInfo db info with
  | .error e => .ok (.fails e, db)
  | .ok (owner, flags, newName) =>
    if newName ≠ none then .ok (.fails .type, db)
    else match db.find oid with
      | none => .ok (.fails .invarg, db)
      | some o =>
        if !db.objectAllows o progr o.flags.write || (progr ≠ owner && !db.isWizard progr) then
          .ok (.fails .perm, db)
        else do
          match ← db.addPropdef oid pname value owner flags with
          | (true, db) => return (.done zero, db)
          | (false, db) => return (.fails .invarg, db)

def bfDeleteProp (db : Db) (oid : ℤ) (pname : CStr) (progr : ℤ) : Result (Stage × Db) :=
  match db.find oid with
  | none => .ok (.fails .invarg, db)
  | some o =>
    if !db.objectAllows o progr o.flags.write then .ok (.fails .perm, db)
    else do
      match ← db.deletePropdef oid pname with
      | (true, db) => return (.done zero, db)
      | (false, db) => return (.fails .propnf, db)

/-- Writes the owner and the flags through a handle for a slot. -/
def setSlotInfo (db : Db) (oid : ℤ) (h : Option PropHandle) (owner : ℤ) (flags : PropPerms) :
    Result Db :=
  match h with
  | none => .error (.undefined "null pointer")
  | some (.builtIn _) => .error (.panic "Built-in property in DB_SET_PROPERTY_OWNER!")
  | some (.slot _ n) => do
    if n < (← db.object oid).propval.length then
      return db.modify oid fun o => { o with
        propval := o.propval.modify n fun pv => { pv with owner := owner, perms := flags } }
    else .error (.undefined "propval out of bounds")

/-- `set_prop_info`; `newPtr` is where the new name is in memory. -/
def setPropInfo (newPtr : ℕ) (db : Db) (oid : ℤ) (pname : CStr) (info : Var) (progr : ℤ) :
    Result (Stage × Db) :=
  match db.find oid with
  | none => .ok (.fails .invarg, db)
  | some o =>
    match validatePropInfo db info with
    | .error e => .ok (.fails e, db)
    | .ok (newOwner, newFlags, newName) => do
      match ← db.findProperty oid pname with
      | none => return (.fails .propnf, db)
      | some (.builtIn _) => return (.fails .propnf, db)
      | some (.slot definer n) =>
        let pval ← deref o.propval[n]?
        if !db.propertyAllows pval progr pval.perms.write ||
            (!db.isWizard progr && pval.owner ≠ newOwner) then
          return (.fails .perm, db)
        match newName with
        | none => return (.done zero, ← db.setSlotInfo oid (some (.slot definer n)) newOwner newFlags)
        | some name =>
          match ← db.renamePropdef oid pname ⟨newPtr, cstr name⟩ with
          | (false, db) => return (.fails .invarg, db)
          | (true, db) =>
            let h ← db.findProperty oid (cstr name)
            return (.done zero, ← db.setSlotInfo oid h newOwner newFlags)

end Db
end LambdaMoo.Database
