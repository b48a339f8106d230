import LambdaMoo.Chase
import LambdaMoo.ForestMove
import LambdaMoo.Properties

/-!
# The object table and its validation

Objects with the fields the database file holds, as the server has them in
memory: links are object numbers, and permissions, prepositions and flags are
words of 16 and 32 bits. After a load the server goes through the table
and repairs or refuses links that do not form the two hierarchies.
-/

set_option autoImplicit false

namespace LambdaMoo.DbFile
open LambdaMoo.Database (strHash)
open LambdaMoo.Database.Db (deref)

structure Verbdef (P : Type) where
  name : CStr
  owner : Objid
  perms : BitVec 16
  prep : BitVec 16
  program : Option P

structure Propdef where
  name : CStr
  hash : BitVec 32

structure Pval where
  var : Var
  owner : Objid
  perms : BitVec 16

structure Object (P : Type) where
  name : CStr
  flags : BitVec 32
  owner : Objid
  location : Objid
  contents : Objid
  next : Objid
  parent : Objid
  child : Objid
  sibling : Objid
  verbdefs : List (Verbdef P)
  propdefs : List Propdef
  propval : List Pval

/-- The objects by number; a recycled one has left its place empty. -/
abbrev Table (P : Type) := List (Option (Object P))

inductive Link where
  | parent | child | sibling | location | contents | next
  deriving DecidableEq, Repr

/-- The links of one of the two hierarchies, and the flag that marks its lost children. -/
structure Side where
  up : Link
  down : Link
  across : Link
  flag : ℕ

section
variable {P : Type}

def dbprivNewPropdef (name : CStr) : Propdef where
  name := name
  hash := strHash name.str

def Object.link (o : Object P) : Link → Objid
  | .parent => o.parent
  | .child => o.child
  | .sibling => o.sibling
  | .location => o.location
  | .contents => o.contents
  | .next => o.next

def Object.setLink (o : Object P) (x : Objid) : Link → Object P
  | .parent => {o with parent := x}
  | .child => {o with child := x}
  | .sibling => {o with sibling := x}
  | .location => {o with location := x}
  | .contents => {o with contents := x}
  | .next => {o with next := x}

def firstTemp : ℕ := 14

def kinship : Side := ⟨.parent, .child, .sibling, firstTemp⟩
def placement : Side := ⟨.location, .contents, .next, firstTemp+1⟩

def Side.bit (s : Side) : BitVec 32 := 1 <<< s.flag

/-- The two flags that only the validation uses. -/
def temps : BitVec 32 := 3 <<< firstTemp

namespace Table

def find (t : Table P) (oid : Objid) : Option (Object P) :=
  if oid.toInt < 0 ∨ (t.length:ℤ) ≤ oid.toInt then none else (t[oid.toNat]?).join

/-- Changes the object that is found at a number. -/
def modify (t : Table P) (oid : Objid) (f : Object P → Object P) : Table P :=
  List.modify t oid.toNat (Option.map f)

def objids (t : Table P) : List Objid := (List.range t.length).map (BitVec.ofNat 64)

/-- More than the objects there are. -/
def fuel (t : Table P) : ℕ := t.length+1

/-- One of the two hierarchies. -/
def heap (t : Table P) (s : Side) : Forest.Heap Objid :=
  fun i => (t.find i).map fun o => ⟨o.link s.up, o.link s.down, o.link s.across⟩

/-- The number of properties that an object has with all its ancestors. -/
def countProperties (t : Table P) : ℕ → Objid → Result ℕ
  | 0, _ => .error .outOfFuel
  | fuel+1, oid =>
    match t.find oid with
    | none => .ok 0
    | some o => do return o.propdefs.length+(← countProperties t fuel o.parent)

def dbprivCountProperties (t : Table P) (oid : Objid) : Result ℕ := t.countProperties t.fuel oid

end Table

/-- What the validation reports with `errlog`. -/
inductive Report where
  | invalid (oid : Objid) (field : Link) (x : Objid)
  | fixedNexts (n : ℕ)
  | cycle (chain : Link) (oid : Objid)
  | erroneouslyOn (kid oid : Objid) (list : Link)
  | notIn (oid : Objid) (up : Link) (x : Objid) (list : Link)
  deriving DecidableEq, Repr

structure Validation (P : Type) where
  objects : Table P
  broken : Bool
  fixedNexts : ℕ
  log : List Report

namespace Validation

def report (v : Validation P) (r : Report) : Validation P := {v with log := v.log ++ [r]}

def breaks (v : Validation P) (r : Report) : Validation P := {v.report r with broken := true}

def modify (v : Validation P) (oid : Objid) (f : Object P → Object P) : Validation P :=
  {v with objects := v.objects.modify oid f}

def setFlags (v : Validation P) (oid : Objid) (f : BitVec 32 → BitVec 32) : Validation P :=
  v.modify oid fun o => {o with flags := f o.flags}

/-- The check of phase 1 for one link of an object. -/
def checkValid (oid : Objid) (v : Validation P) (l : Link) : Validation P :=
  match v.objects.find oid with
  | none => v
  | some o =>
    if o.link l ≠ nothing ∧ (v.objects.find (o.link l)).isNone then
      (v.report (.invalid oid l (o.link l))).modify oid (·.setLink nothing l)
    else v

def checkNext (oid : Objid) (v : Validation P) : Validation P :=
  match v.objects.find oid with
  | none => v
  | some o =>
    if o.location = nothing ∧ o.next ≠ nothing then
      {v.modify oid (·.setLink nothing .next) with fixedNexts := v.fixedNexts+1}
    else v

def links : List Link := [.parent, .child, .sibling, .location, .contents, .next]

/-- Phase 1: links to objects that are not there. -/
def phase1 (v : Validation P) : Validation P :=
  let v := v.objects.objids.foldl (fun v oid => links.foldl (checkValid oid) (v.checkNext oid)) v
  if v.fixedNexts ≠ 0 then v.report (.fixedNexts v.fixedNexts) else v

/-- The check of phase 2 for one chain of links, which starts at the link `start`. -/
def checkCycle (oid : Objid) (v : Validation P) (start field : Link) : Result (Validation P) := do
  let o ← deref (v.objects.find oid)
  let met ← deref (Chase.meets nothing (fun i => (v.objects.find i).map (·.link field))
    v.objects.fuel (o.link start) (o.link start))
  return if met then v.breaks (.cycle start oid) else v

def checkCycles (v : Validation P) (oid : Objid) : Result (Validation P) :=
  match v.objects.find oid with
  | none => .ok v
  | some _ => do
    let v ← checkCycle oid v .parent .parent
    let v ← checkCycle oid v .child .sibling
    let v ← checkCycle oid v .location .location
    let v ← checkCycle oid v .contents .next
    return v.setFlags oid (· ||| temps)

/-- Phase 2: chains that do not end. -/
def phase2 (v : Validation P) : Result (Validation P) := v.objects.objids.foldlM checkCycles v

/-- The loop of phase 3a along one list of an object. -/
def claim (oid : Objid) (s : Side) : ℕ → Objid → Validation P → Result (Validation P)
  | 0, _, _ => .error .outOfFuel
  | fuel+1, kid, v =>
    if kid = nothing then .ok v
    else do
      let okid ← deref (v.objects.find kid)
      let v := if okid.link s.up ≠ oid then v.breaks (.erroneouslyOn kid oid s.down)
        else v.setFlags kid (· &&& ~~~s.bit)
      claim oid s fuel (okid.link s.across) v

def claimAll (v : Validation P) (oid : Objid) : Result (Validation P) :=
  match v.objects.find oid with
  | none => .ok v
  | some o => do
    let v ← claim oid kinship v.objects.fuel (o.link .child) v
    claim oid placement v.objects.fuel (o.link .contents) v

/-- Phase 3a: parents that list others' children. -/
def phase3a (v : Validation P) : Result (Validation P) := v.objects.objids.foldlM claimAll v

def checkClaimed (oid : Objid) (o : Object P) (v : Validation P) (s : Side) : Validation P :=
  if o.flags &&& s.bit ≠ 0 ∧ o.link s.up ≠ nothing then
    v.breaks (.notIn oid s.up (o.link s.up) s.down)
  else v

def checkChildren (v : Validation P) (oid : Objid) : Validation P :=
  match v.objects.find oid with
  | none => v
  | some o => ([kinship, placement].foldl (checkClaimed oid o) v).setFlags oid (· &&& ~~~temps)

/-- Phase 3b: children that no parent lists. -/
def phase3b (v : Validation P) : Validation P := v.objects.objids.foldl checkChildren v

end Validation

/-- Whether the hierarchies are in order, with the table as it is left. -/
def validateHierarchies (t : Table P) : Result (Bool × Validation P) := do
  let v := Validation.phase1 ⟨t, false, 0, []⟩
  let v ← v.phase2
  if v.broken then return (false, v)
  else do
    let v ← v.phase3a
    let v := v.phase3b
    return (!v.broken, v)

end
end LambdaMoo.DbFile
