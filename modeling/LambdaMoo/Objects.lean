import LambdaMoo.Properties

/-!
# Operations on objects

Creation, destruction, renumbering and the two kinds of move, with the
built-in functions that check them. A built-in function that calls a verb
returns to the interpreter and goes on in a later stage, so that anything can
happen to the database in between; what `call_verb` says is a parameter.
-/

set_option autoImplicit false

namespace LambdaMoo.Database

namespace Db

def noFlags : Flags := ⟨false, false, false, false, false, false⟩

def noName : CStr := ⟨[], by decide⟩

def orphan : Forest.Links ℤ := ⟨nothing, nothing, nothing⟩

/-- The new object has the next number. -/
def createObject (db : Db) : Db where
  objects i :=
    if i = db.numObjects then
      some ⟨noName, nothing, noFlags, orphan, orphan, [], [], [], none⟩
    else db.objects i
  numObjects := db.numObjects+1
  allUsers := db.allUsers
  nextUid := db.nextUid
  wpds := db.wpds
  nextWpd := db.nextWpd
  vcTable := db.vcTable
  bounded i hi := by
    by_cases h' : i = db.numObjects
    · omega
    · simp only [h', if_false] at hi
      have := db.bounded i hi
      omega

def dropObject (db : Db) (oid : ℤ) : Db where
  objects i := if i = oid then none else db.objects i
  numObjects := db.numObjects
  allUsers := db.allUsers
  nextUid := db.nextUid
  wpds := db.wpds
  nextWpd := db.nextWpd
  vcTable := db.vcTable
  bounded i hi := by
    by_cases h : i = oid
    · simp [h] at hi
    · simp only [h, if_false] at hi
      exact db.bounded i hi

def destroyObject (db : Db) (oid : ℤ) : Result Db :=
  match db.find oid with
  | none => .error (.panic "DB_DESTROY_OBJECT: Invalid object!")
  | some o =>
    if o.place.up ≠ nothing ∨ o.place.first ≠ nothing ∨ o.kin.up ≠ nothing ∨
        o.kin.first ≠ nothing then
      .error (.panic "DB_DESTROY_OBJECT: Not a barren orphan!")
    else .ok { db.dropObject oid with
      allUsers := if db.isUser oid then db.allUsers.erase oid else db.allUsers
      vcTable := db.affectedCallableVerbLookup.vcTable }

def renameOwner (old new owner : ℤ) : ℤ :=
  if owner = new then nothing else if owner = old then new else owner

/-- The owners of one object, its verbs and its first `count` slots. -/
def renameOwners (old new : ℤ) (count : ℕ) (o : Object) : Object :=
  { o with
    owner := renameOwner old new o.owner
    verbdefs := o.verbdefs.map fun v => { v with owner := renameOwner old new v.owner }
    propval := (o.propval.take count).map (fun p => { p with owner := renameOwner old new p.owner })
      ++o.propval.drop count }

def fixOwners (db : Db) (old new : ℤ) : Result Db :=
  (List.range db.numObjects).foldlM (fun db (i : ℕ) =>
    match db.objects i with
    | none => .ok db
    | some o => do
      let count ← db.countProperties i
      if count ≤ o.propval.length then return db.modify i (renameOwners old new count)
      else .error (.undefined "propval out of bounds")) db

/-- An object under another number that is free. -/
def moveObject (db : Db) (old new : ℤ) (h : 0 ≤ new ∧ new < db.numObjects) : Db where
  objects i := if i = new then db.objects old else if i = old then none else db.objects i
  numObjects := db.numObjects
  allUsers := db.allUsers
  nextUid := db.nextUid
  wpds := db.wpds
  nextWpd := db.nextWpd
  vcTable := db.vcTable
  bounded i hi := by
    by_cases h1 : i = new
    · exact h1 ▸ h
    · by_cases h2 : i = old
      · simp [h2, h2 ▸ h1] at hi
      · simp only [h1, h2, if_false] at hi
        exact db.bounded i hi

def orPanic {α : Type} (msg : String) (x : Option α) : Result α :=
  match x with
  | some a => .ok a
  | none => .error (.panic msg)

def replaceUser (old new : ℤ) (users : List ℤ) : List ℤ :=
  match users.findIdx? (· = old) with
  | some i => users.set i new
  | none => users

/-- The lowest free number below that of an object. -/
def freeBelow (db : Db) (old : ℤ) : Option ℕ :=
  (List.range (min old.toNat db.numObjects)).find? fun new => (db.objects new).isNone

/-- The new number, or the old one if no lower number is free. -/
def renumberObject (db : Db) (old : ℤ) : Result (ℤ × Db) :=
  match h : db.freeBelow old with
  | none => .ok (old, db.affectedCallableVerbLookup)
  | some new => do
    let kin ← orPanic "Object not in parent's children list"
      (Forest.rename nothing db.fuel db.kin old new)
    let place ← orPanic "Object not in location's contents list"
      (Forest.rename nothing db.fuel db.place old new)
    have hnew : new < db.numObjects := by
      have := List.mem_range.mp (List.mem_of_find?_eq_some h)
      omega
    let db1 := ((db.moveObject old new (by omega)).setKin kin).setPlace place
    let db2 := { db1 with
      allUsers := if db1.isUser new then replaceUser old new db.allUsers else db.allUsers
      vcTable := db.affectedCallableVerbLookup.vcTable }
    return (new, ← db2.fixOwners old new)

/-- False where a property of the new parent is defined at or below the object. -/
def changeParent (db : Db) (oid parent : ℤ) : Result (Bool × Db) := do
  if !(← db.checkPropertiesForChparent oid parent) then return (false, db)
  let o ← db.object oid
  let db := { db with
    vcTable := if o.kin.first = nothing ∧ o.verbdefs = [] then db.vcTable
      else db.affectedCallableVerbLookup.vcTable }
  let kin ← deref (Forest.reparent nothing db.fuel db.kin oid parent)
  return (true, ← (db.setKin kin).fixPropertiesAfterChparent oid o.kin.up)

def changeLocation (db : Db) (oid location : ℤ) : Result Db := do
  let o ← db.object oid
  let place ← if db.valid o.place.up then
    deref (Forest.remove nothing db.fuel db.place o.place.up oid) else .ok db.place
  let place ← if db.valid location then
    deref (Forest.append nothing db.fuel place location oid) else .ok place
  return db.setPlace (Forest.setUp place oid location)

def objectAllows (db : Db) (o : Object) (progr : ℤ) (flag : Bool) : Bool :=
  progr == o.owner || db.isWizard progr || flag

def controls (db : Db) (who : ℤ) (what : Object) : Bool := db.isWizard who || who == what.owner

/-- How a stage of a built-in function ends. -/
inductive Stage where
  | done (value : Var)
  | fails (e : Err)
  | calls (pc : ℕ)
  deriving DecidableEq

/-- What `call_verb` returns for an object and verb. -/
abbrev CallVerb := ℤ → String → Err

def exitMove (callVerb : CallVerb) (db : Db) (what where_ : ℤ) : Result Stage := do
  if db.valid where_ && db.valid what then
    if (← db.object what).place.up = where_ then
      match callVerb where_ "enterfunc" with
      | .none => return .calls 4
      | .maxrec => return .fails .maxrec
      | _ => return .done zero
    else return .done zero
  else return .done zero

def acceptsDecided (callVerb : CallVerb) (db : Db) (what where_ : ℤ) (accepts : Bool)
    (progr : ℤ) : Result (Stage × Db) := do
  if !db.isWizard progr && !accepts then return (.fails .nacc, db)
  if !db.valid what || (where_ ≠ nothing && !db.valid where_) then return (.done zero, db)
  let oldloc := (← db.object what).place.up
  if oldloc = where_ then return (.done zero, db)
  if ← deref (Forest.reaches nothing db.place what (db.fuel+1) where_) then
    return (.fails .recmove, db)
  let db ← db.changeLocation what where_
  match callVerb oldloc "exitfunc" with
  | .none => return (.calls 3, db)
  | .maxrec => return (.fails .maxrec, db)
  | _ => return (← exitMove callVerb db what where_, db)

/-- `do_move` from one of its stages; `accepts` is what the `accept` verb returned. -/
def doMove (callVerb : CallVerb) (db : Db) (next : ℕ) (what where_ : ℤ) (accepts : Bool)
    (progr : ℤ) : Result (Stage × Db) :=
  match next with
  | 1 =>
    match db.find what with
    | none => .ok (.fails .invarg, db)
    | some o =>
      if !db.valid where_ && where_ ≠ nothing then .ok (.fails .invarg, db)
      else if !db.controls progr o then .ok (.fails .perm, db)
      else if where_ = nothing then acceptsDecided callVerb db what where_ true progr
      else match callVerb where_ "accept" with
        | .none => .ok (.calls 2, db)
        | .verbnf => acceptsDecided callVerb db what where_ false progr
        | e => .ok (.fails e, db)
  | 2 => acceptsDecided callVerb db what where_ accepts progr
  | 3 => do return (← exitMove callVerb db what where_, db)
  | 4 => .ok (.done zero, db)
  | _ => .error (.panic "Unknown PC in DO_MOVE")

def chparent (db : Db) (what parent progr : ℤ) : Result (Stage × Db) :=
  match db.find what with
  | none => .ok (.fails .invarg, db)
  | some o =>
    if !db.valid parent && parent ≠ nothing then .ok (.fails .invarg, db)
    else if !db.controls progr o || (match db.find parent with
        | some p => !db.objectAllows p progr p.flags.fertile
        | none => false) then .ok (.fails .perm, db)
    else do
      if ← deref (Forest.reaches nothing db.kin what (db.fuel+1) parent) then
        return (.fails .recmove, db)
      match ← db.changeParent what parent with
      | (true, db') => return (.done zero, db')
      | (false, db') => return (.fails .invarg, db')

/-- True if an `exitfunc` is to be run. -/
def moveToNothing (callVerb : CallVerb) (db : Db) (oid : ℤ) : Result (Bool × Db) := do
  let oldloc := (← db.object oid).place.up
  let db ← db.changeLocation oid nothing
  return (callVerb oldloc "exitfunc" = .none, db)

/-- Moves the contents out one by one, as long as no `exitfunc` is to be run; true if one is. -/
def moveContents (callVerb : CallVerb) (oid : ℤ) : ℕ → Db → Result (Bool × Db)
  | 0, _ => .error .outOfFuel
  | fuel+1, db => do
    match ← db.contents oid with
    | [] => return (false, db)
    | c::_ =>
      let (called, db) ← db.moveToNothing callVerb c
      if called then return (true, db) else moveContents callVerb oid fuel db

/-- Gives the children to the parent of an object. -/
def passChildren (oid : ℤ) : ℕ → Db → Result Db
  | 0, _ => .error .outOfFuel
  | fuel+1, db => do
    match ← db.children oid with
    | [] => return db
    | c::_ =>
      let (_, db) ← db.changeParent c (← db.object oid).kin.up
      passChildren oid fuel db

/-- Writes through a handle for a slot. -/
def setSlot (db : Db) (oid : ℤ) (n : ℕ) (value : Var) : Result Db := do
  if n < (← db.object oid).propval.length then
    return db.modify oid fun o => { o with
      propval := o.propval.modify n fun pv => { pv with var := value } }
  else .error (.undefined "propval out of bounds")

def quotaName : CStr := ⟨ascii "ownership_quota", by decide⟩

/-- The slot of a player's quota and its value, if it is a number. -/
def quota (db : Db) (player : ℤ) : Result (Option (ℕ × Num)) := do
  if !db.valid player then return none
  match ← db.findProperty player quotaName with
  | some (.slot _ n) =>
    match ← slotValue n (← db.ancestors db.fuel player) with
    | .int num => return some (n, num)
    | _ => return none
  | _ => return none

def decrQuota (db : Db) (player : ℤ) : Result (Bool × Db) := do
  match ← db.quota player with
  | none => return (true, db)
  | some (n, num) =>
    if num.toInt ≤ 0 then return (false, db)
    else return (true, ← db.setSlot player n (.int (num-1)))

def incrQuota (db : Db) (player : ℤ) : Result Db := do
  match ← db.quota player with
  | none => return db
  | some (n, num) => db.setSlot player n (.int (num+1))

/-- The first stage of `create`. -/
def create (callVerb : CallVerb) (db : Db) (parent owner progr : ℤ) : Result (Stage × Db) := do
  if (match db.find parent with
      | some p => !db.objectAllows p progr p.flags.fertile
      | none => parent ≠ nothing) || (owner ≠ progr && !db.isWizard progr) then
    return (.fails .perm, db)
  let (allowed, db) ← db.decrQuota owner
  if !allowed then return (.fails .quota, db)
  let oid : ℤ := db.numObjects
  let db := db.createObject.modify oid fun o => { o with
    owner := if owner = nothing then oid else owner }
  let (_, db) ← db.changeParent oid parent
  match callVerb oid "initialize" with
  | .none => return (.calls 2, db)
  | .maxrec => return (.fails .maxrec, db)
  | _ => return (.done (.obj (BitVec.ofInt 64 oid)), db)

/-- What is left of `recycle` when no verb is to be called any more. -/
def demolish (db : Db) (oid : ℤ) : Result Db := do
  let db ← passChildren oid db.fuel db
  let (_, db) ← db.changeParent oid nothing
  let db ← db.incrQuota (← db.object oid).owner
  db.destroyObject oid

def recycleContents (callVerb : CallVerb) (db : Db) (oid : ℤ) : Result (Stage × Db) := do
  if !db.valid oid then return (.done zero, db)
  let (called, db) ← moveContents callVerb oid db.fuel db
  if called then return (.calls 2, db)
  if (← db.object oid).place.up ≠ nothing then
    let (called, db) ← db.moveToNothing callVerb oid
    if called then return (.calls 2, db)
    return (.done zero, ← db.demolish oid)
  else return (.done zero, ← db.demolish oid)

/-- `recycle` from one of its stages. -/
def recycle (callVerb : CallVerb) (db : Db) (pc : ℕ) (oid progr : ℤ) : Result (Stage × Db) :=
  match pc with
  | 1 =>
    match db.find oid with
    | none => .ok (.fails .invarg, db)
    | some o =>
      if !db.controls progr o then .ok (.fails .perm, db)
      else if callVerb oid "recycle" = .none then .ok (.calls 2, db)
      else db.recycleContents callVerb oid
  | 2 => db.recycleContents callVerb oid
  | _ => .error (.panic "Can't happen in BF_RECYCLE")

/-- The number after the last that is used among the first ones. -/
def lastUsed (db : Db) : ℕ → Option ℕ
  | 0 => none
  | n+1 => if (db.objects n).isSome then some (n+1) else db.lastUsed n

theorem lastUsed_le {db : Db} {n k : ℕ} (h : db.lastUsed n = some k) :
    ∀ i : ℕ, k ≤ i → i < n → db.objects i = none := by
  induction n with
  | zero => simp
  | succ n ih =>
    intro i hk hi
    rw [lastUsed] at h
    by_cases hs : (db.objects n).isSome = true
    · rw [if_pos hs, Option.some.injEq] at h
      omega
    · rw [if_neg hs] at h
      by_cases hin : i = n
      · subst hin
        exact Option.not_isSome_iff_eq_none.mp hs
      · exact ih h i hk (by omega)

def resetLastUsedObjid (db : Db) : Result Db :=
  match h : db.lastUsed db.numObjects with
  | none => .error (.undefined "objects[-1]")
  | some n => .ok { db with
      numObjects := n
      bounded := fun i hi => by
        obtain ⟨h0, hlt⟩ := db.bounded i hi
        refine ⟨h0, ?_⟩
        by_contra hn
        have := lastUsed_le h i.toNat (by omega) (by omega)
        rw [Int.toNat_of_nonneg h0] at this
        rw [this] at hi
        cases hi }

def renumber (db : Db) (oid progr : ℤ) : Result (Stage × Db) := do
  if !db.valid oid then return (.fails .invarg, db)
  if !db.isWizard progr then return (.fails .perm, db)
  let (new, db) ← db.renumberObject oid
  return (.done (.obj (BitVec.ofInt 64 new)), db)

def clearProp (db : Db) (oid : ℤ) (pname : CStr) (progr : ℤ) : Result (Stage × Db) := do
  match db.find oid with
  | none => return (.fails .invarg, db)
  | some o =>
    match ← db.findProperty oid pname with
    | none => return (.fails .propnf, db)
    | some (.builtIn _) => return (.fails .perm, db)
    | some (.slot definer n) =>
      let pval ← deref o.propval[n]?
      if progr ≠ pval.owner && !db.isWizard progr then return (.fails .perm, db)
      if definer = oid then return (.fails .invarg, db)
      return (.done zero, ← db.setSlot oid n .clear)

end Db
end LambdaMoo.Database
