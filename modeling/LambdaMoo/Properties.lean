import LambdaMoo.Database

/-!
# Properties

A slot of an object belongs to a property by its position alone: the slots of
the properties the object defines come first, then those of its parent.
-/

set_option autoImplicit false

namespace LambdaMoo.Database

def strHash (s : Str) : BitVec 32 :=
  s.foldl (fun ans c => (ans <<< 3)+(ans >>> 28)+BitVec.ofNat 32 (cmap c).toNat) 0

/-- A definition has this name, up to case. -/
def Propdef.named (p : Propdef) (pname : CStr) : Bool :=
  strHash p.name.str.str == strHash pname.str && mystrcasecmp p.name.str.str pname.str == 0

def waifPropPrefix : Byte := 58

def Propdef.isWaif (p : Propdef) : Bool := p.name.str.str.head? == some waifPropPrefix

inductive BiProp where
  | name | owner | programmer | wizard | r | w | f | location | contents
  deriving DecidableEq, Repr

def BiProp.all : List BiProp :=
  [.name, .owner, .programmer, .wizard, .r, .w, .f, .location, .contents]

def BiProp.pname : BiProp → Str
  | .name => ascii "name" | .owner => ascii "owner" | .programmer => ascii "programmer"
  | .wizard => ascii "wizard" | .r => ascii "r" | .w => ascii "w" | .f => ascii "f"
  | .location => ascii "location" | .contents => ascii "contents"

def builtIn (name : CStr) : Option BiProp :=
  BiProp.all.find? fun b => strHash b.pname == strHash name.str && mystrcasecmp name.str b.pname == 0

/-- What `db_find_property` finds: a built-in property, or the definer and the slot of another. -/
inductive PropHandle where
  | builtIn (prop : BiProp)
  | slot (definer : ℤ) (n : ℕ)
  deriving DecidableEq

namespace Db

def countProperties (db : Db) (oid : ℤ) : Result ℕ := do
  return ((← db.ancestors db.fuel oid).map fun a => a.2.propdefs.length).sum

/-- The definer and slot of a name among the definitions of these objects. -/
def findSlot (name : CStr) : ℕ → List (ℤ × Object) → Option (ℤ × ℕ)
  | _, [] => none
  | n, (oid, o)::rest =>
    match o.propdefs.findIdx? (·.named name) with
    | some i => some (oid, n+i)
    | none => findSlot name (n+o.propdefs.length) rest

def findProperty (db : Db) (oid : ℤ) (name : CStr) : Result (Option PropHandle) :=
  match builtIn name with
  | some b => .ok (some (.builtIn b))
  | none => do
    match findSlot name 0 (← db.ancestors db.fuel oid) with
    | some (definer, n) => return some (.slot definer n)
    | none => return none

/-- The value of a slot: that of the nearest ancestor where it is not clear. -/
def slotValue : ℕ → List (ℤ × Object) → Result Var
  | _, [] => .error (.undefined "null pointer")
  | n, (_, o)::rest => do
    let pval ← deref o.propval[n]?
    if pval.var.type = .clear then slotValue (n-o.propdefs.length) rest else return pval.var

def definedAtOrBelow (db : Db) (pname : CStr) (oid : ℤ) : Result Bool := do
  (← db.subtree db.fuel oid 0).anyM fun d => do
    return (← db.object d.1).propdefs.any (·.named pname)

/-- A new slot in the array of one object. -/
def insertProp (db : Db) (oid : ℤ) (pos : ℕ) (pval : Pval) : Result Db := do
  let nprops ← db.countProperties oid
  let o ← db.object oid
  if nprops ≤ o.propval.length+1 ∧ pos < nprops then
    let pval := if pval.perms.chown then { pval with owner := o.owner } else pval
    return db.modify oid fun o => { o with
      waifPropdefs := none
      propval := o.propval.take pos++pval::(o.propval.drop pos).take (nprops-(pos+1)) }
  else .error (.undefined "propval out of bounds")

def insertPropRecursively (db : Db) (root : ℤ) (pos : ℕ) (pv : Pval) : Result Db := do
  (← db.subtree db.fuel root pos).foldlM (fun db d =>
    db.insertProp d.1 d.2 (if d.1 = root then pv else { pv with var := .clear })) db

/-- True with the new database, or false with the old one. -/
def addPropdef (db : Db) (oid : ℤ) (pname : Name) (value : Var) (owner : ℤ)
    (flags : PropPerms) : Result (Bool × Db) := do
  if (← db.findProperty oid pname.str).isSome then return (false, db)
  if ← db.definedAtOrBelow pname.str oid then return (false, db)
  let o ← db.object oid
  let db1 := { db.modify oid fun o => { o with
    propdefs := o.propdefs++[⟨pname, db.nextUid⟩] } with nextUid := db.nextUid+1 }
  let db2 ← db1.insertPropRecursively oid o.propdefs.length ⟨value, owner, flags, db.nextUid⟩
  return (true, db2)

def removeProp (db : Db) (oid : ℤ) (pos : ℕ) : Result Db := do
  let nprops ← db.countProperties oid
  let o ← db.object oid
  if nprops < o.propval.length ∧ pos ≤ nprops then
    return db.modify oid fun o => { o with
      waifPropdefs := none
      propval := o.propval.take pos++(o.propval.drop (pos+1)).take (nprops-pos) }
  else .error (.undefined "propval out of bounds")

def removePropRecursively (db : Db) (root : ℤ) (pos : ℕ) : Result Db := do
  (← db.subtree db.fuel root pos).foldlM (fun db d => db.removeProp d.1 d.2) db

def deletePropdef (db : Db) (oid : ℤ) (pname : CStr) : Result (Bool × Db) := do
  match (← db.object oid).propdefs.findIdx? (·.named pname) with
  | none => return (false, db)
  | some i =>
    let db1 := db.modify oid fun o => { o with propdefs := o.propdefs.eraseIdx i }
    return (true, ← db1.removePropRecursively oid i)

/-- Renames an entry of the list of waif properties that an object points to, or drops the list
where the name stops or starts being one of a waif property. -/
def waifRenamePropdef (db : Db) (oid : ℤ) (wpd : ℕ) (old new : Name) : Result Db :=
  if old.str.str.head? = some waifPropPrefix ∧ new.str.str.head? = some waifPropPrefix then
    match (db.wpds wpd).findIdx? (·.name = old) with
    | some i => .ok { db with
        wpds := Function.update db.wpds wpd ((db.wpds wpd).modify i fun p => { p with name := new }) }
    | none => .error (.panic "waif_rename_propdef(): missing old propdef?")
  else .ok (db.modify oid fun o => { o with waifPropdefs := none })

def renamePropRecursively (db : Db) (root : ℤ) (old new : Name) : Result Db := do
  (← db.subtree db.fuel root 0).foldlM (fun db d => do
    match (← db.object d.1).waifPropdefs with
    | some wpd => db.waifRenamePropdef d.1 wpd old new
    | none => return db) db

def renamePropdef (db : Db) (oid : ℤ) (old : CStr) (new : Name) : Result (Bool × Db) := do
  let o ← db.object oid
  match o.propdefs.findIdx? (·.named old) with
  | none => return (false, db)
  | some i =>
    if mystrcasecmp old.str new.str.str ≠ 0 then
      if (← db.findProperty oid new.str).isSome then return (false, db)
      if ← db.definedAtOrBelow new.str oid then return (false, db)
    let p ← deref o.propdefs[i]?
    let db1 ← db.renamePropRecursively oid p.name new
    return (true, db1.modify oid fun o => { o with
      propdefs := o.propdefs.modify i fun p => { p with name := new } })

/-- The part of `fix_props` for one object, whose slots up to `loc` stay. -/
def fixProps (old new common : ℕ) (db : Db) (oid : ℤ) (loc : ℕ) : Result Db := do
  let me ← db.object oid
  let parent := db.find me.kin.up
  let parentLocal := loc-me.propdefs.length
  let inherited ← if new = 0 then .ok []
    else do
      let p ← deref parent
      if parentLocal+new ≤ p.propval.length then
        .ok (((p.propval.drop parentLocal).take new).map fun pv => { pv with
          var := .clear
          owner := if pv.perms.chown then me.owner else pv.owner })
      else .error (.undefined "propval out of bounds")
  if loc+old+common ≤ me.propval.length then
    return db.modify oid fun o => { o with
      waifPropdefs := none
      propval := o.propval.take loc++inherited++(o.propval.drop (loc+old)).take common }
  else .error (.undefined "propval out of bounds")

def checkPropertiesForChparent (db : Db) (oid newParent : ℤ) : Result Bool := do
  (← db.ancestors db.fuel newParent).allM fun a => a.2.propdefs.allM fun p => do
    return !(← db.definedAtOrBelow p.name.str oid)

/-- The number of properties of the nearest common ancestor of two objects. -/
def commonProps (db : Db) (newParent oldParent : ℤ) : Result ℕ := do
  let olds ← db.ancestors db.fuel oldParent
  match (← db.ancestors db.fuel newParent).find? fun a => olds.any (·.1 = a.1) with
  | some a => db.countProperties a.1
  | none => return 0

def fixPropertiesAfterChparent (db : Db) (oid oldParent : ℤ) : Result Db := do
  let o ← db.object oid
  let common ← db.commonProps o.kin.up oldParent
  let old := (← db.countProperties oldParent)-common
  let new := (← db.countProperties o.kin.up)-common
  (← db.subtree db.fuel oid o.propdefs.length).foldlM (fun db d => fixProps old new common db d.1 d.2) db

end Db
end LambdaMoo.Database
