import Mathlib.Data.Int.Interval
import LambdaMoo.ForestRename
import LambdaMoo.Values

/-!
# The object database

Objects by number, with the two forests they form: the children of a parent
and the contents of a location. Object numbers are integers; `-1` is no object.
-/

set_option autoImplicit false

namespace LambdaMoo

/-- A C string, which has no NUL byte before its end. -/
structure CStr where
  str : Str
  noNul : 0 ∉ str
  deriving DecidableEq

theorem noNul_nil : (0 : Byte) ∉ ([] : Str) := List.not_mem_nil

namespace Database

def nothing : ℤ := -1

structure PropPerms where
  read : Bool
  write : Bool
  chown : Bool
  deriving DecidableEq, Repr

/-- A string in memory. -/
structure Name where
  ptr : ℕ
  str : CStr
  deriving DecidableEq

/-- A property definition; `uid`, which nothing reads, tells it apart from all others. -/
structure Propdef where
  name : Name
  uid : ℕ
  deriving DecidableEq

/-- A property slot, with the definition it was made for, which nothing reads. -/
structure Pval where
  var : Var
  owner : ℤ
  perms : PropPerms
  uid : ℕ

structure VerbPerms where
  read : Bool
  write : Bool
  exec : Bool
  debug : Bool
  deriving DecidableEq, Repr

/-- A verb; `ptr` is its address. -/
structure Verbdef where
  ptr : ℕ
  name : CStr
  owner : ℤ
  perms : VerbPerms
  dobj : ℕ
  prep : ℤ
  iobj : ℕ
  program : Option ℕ
  deriving DecidableEq

structure Flags where
  user : Bool
  programmer : Bool
  wizard : Bool
  read : Bool
  write : Bool
  fertile : Bool
  deriving DecidableEq, Repr

/-- An object. `kin` holds the parent, the first child and the next sibling, `place` the location,
the first of the contents and the next object in the same location. -/
structure Object where
  name : CStr
  owner : ℤ
  flags : Flags
  kin : Forest.Links ℤ
  place : Forest.Links ℤ
  verbdefs : List Verbdef
  propdefs : List Propdef
  propval : List Pval
  waifPropdefs : Option ℕ

/-- An entry of the verb cache; `h` is the definer and the address of the verb, if there is one. -/
structure VcEntry where
  hash : BitVec 32
  oidKey : ℤ
  verbname : CStr
  h : Option (ℤ × ℕ)

/-- The database; `wpds` holds the lists of waif properties that objects and waifs point to, and
`vcTable` the buckets of the verb cache, once it is made. -/
structure Db where
  objects : ℤ → Option Object
  numObjects : ℕ
  allUsers : List ℤ
  nextUid : ℕ
  wpds : ℕ → List Propdef
  nextWpd : ℕ
  vcTable : Option (ℕ → List VcEntry)
  bounded : ∀ i, (objects i).isSome = true → 0 ≤ i ∧ i < numObjects

namespace Db

def find (db : Db) (oid : ℤ) : Option Object :=
  if oid < 0 ∨ db.numObjects ≤ oid then none else db.objects oid

def valid (db : Db) (oid : ℤ) : Bool := (db.find oid).isSome

theorem find_eq (db : Db) (oid : ℤ) : db.find oid = db.objects oid := by
  rw [find]
  by_cases h : oid < 0 ∨ db.numObjects ≤ oid
  · rw [if_pos h]
    cases ho : db.objects oid with
    | none => rfl
    | some o =>
      have := db.bounded oid (by simp [ho])
      exact absurd h (by omega)
  · rw [if_neg h]

/-- Rewrites one object in place. -/
def modify (db : Db) (oid : ℤ) (f : Object → Object) : Db where
  objects i := if i = oid then (db.objects i).map f else db.objects i
  numObjects := db.numObjects
  allUsers := db.allUsers
  nextUid := db.nextUid
  wpds := db.wpds
  nextWpd := db.nextWpd
  vcTable := db.vcTable
  bounded i hi := by
    by_cases h : i = oid
    · simp only [h, if_true, Option.isSome_map] at hi
      exact h ▸ db.bounded oid hi
    · simp only [h, if_false] at hi
      exact db.bounded i hi

/-- Rewrites every object in place. -/
def mapObjects (db : Db) (f : ℤ → Object → Object) : Db where
  objects i := (db.objects i).map (f i)
  numObjects := db.numObjects
  allUsers := db.allUsers
  nextUid := db.nextUid
  wpds := db.wpds
  nextWpd := db.nextWpd
  vcTable := db.vcTable
  bounded i hi := db.bounded i (by simpa using hi)

def kin (db : Db) : Forest.Heap ℤ := fun i => (db.objects i).map (·.kin)
def place (db : Db) : Forest.Heap ℤ := fun i => (db.objects i).map (·.place)

def setKin (db : Db) (h : Forest.Heap ℤ) : Db :=
  db.mapObjects fun i o => { o with kin := (h i).getD o.kin }
def setPlace (db : Db) (h : Forest.Heap ℤ) : Db :=
  db.mapObjects fun i o => { o with place := (h i).getD o.place }

/-- No list of objects is longer. -/
def fuel (db : Db) : ℕ := db.numObjects+1

/-- Empties the verb cache. -/
def affectedCallableVerbLookup (db : Db) : Db :=
  { db with vcTable := db.vcTable.map fun _ _ => [] }

def deref {α : Type} (x : Option α) : Result α :=
  match x with
  | some a => .ok a
  | none => .error (.undefined "null pointer")

def object (db : Db) (oid : ℤ) : Result Object := deref (db.find oid)

/-- The list that `db_for_all_children` goes through. -/
def children (db : Db) (oid : ℤ) : Result (List ℤ) := do
  deref (Forest.walk nothing db.kin db.fuel (← db.object oid).kin.first)

def contents (db : Db) (oid : ℤ) : Result (List ℤ) := do
  deref (Forest.walk nothing db.place db.fuel (← db.object oid).place.first)

def isWizard (db : Db) (oid : ℤ) : Bool :=
  match db.find oid with
  | some o => o.flags.wizard
  | none => false

def isUser (db : Db) (oid : ℤ) : Bool :=
  match db.find oid with
  | some o => o.flags.user
  | none => false

/-- The objects from one up to the root of its tree. -/
def ancestors (db : Db) : ℕ → ℤ → Result (List (ℤ × Object))
  | 0, _ => .error .outOfFuel
  | fuel+1, oid =>
    match db.find oid with
    | none => .ok []
    | some o => do return (oid, o)::(← ancestors db fuel o.kin.up)

/-- The order in which the walks over an object and its descendants visit them, with the number of
slots before those of the first object's position. -/
def subtree (db : Db) : ℕ → ℤ → ℕ → Result (List (ℤ × ℕ))
  | 0, _, _ => .error .outOfFuel
  | fuel+1, oid, pos => do
    let below ← (← db.children oid).mapM fun c => do
      subtree db fuel c ((← db.object c).propdefs.length+pos)
    return (oid, pos)::below.flatten

@[simp] theorem modify_numObjects (db : Db) (oid : ℤ) (f : Object → Object) :
    (db.modify oid f).numObjects = db.numObjects := rfl

@[simp] theorem modify_fuel (db : Db) (oid : ℤ) (f : Object → Object) :
    (db.modify oid f).fuel = db.fuel := rfl

@[simp] theorem mapObjects_fuel (db : Db) (f : ℤ → Object → Object) :
    (db.mapObjects f).fuel = db.fuel := rfl

theorem modify_self {db : Db} {oid : ℤ} {o : Object} (h : db.objects oid = some o)
    (f : Object → Object) : (db.modify oid f).objects oid = some (f o) := by
  simp [modify, h]

theorem modify_ne (db : Db) {oid i : ℤ} (h : i ≠ oid) (f : Object → Object) :
    (db.modify oid f).objects i = db.objects i := by
  simp [modify, h]

/-- A field that a change keeps is the same in every object. -/
theorem modify_field {β : Type} (db : Db) (g : Object → β) (f : Object → Object)
    (hg : ∀ o, g (f o) = g o) (oid i : ℤ) :
    ((db.modify oid f).objects i).map g = (db.objects i).map g := by
  by_cases h : i = oid
  · subst h
    cases ho : db.objects i with
    | none => simp [modify, ho]
    | some o => rw [modify_self ho, Option.map_some, Option.map_some, hg]
  · rw [modify_ne db h]

theorem modify_isSome (db : Db) (oid i : ℤ) (f : Object → Object) :
    ((db.modify oid f).objects i).isSome = (db.objects i).isSome := by
  by_cases h : i = oid <;> simp [modify, h]

/-- The nodes of both forests are fewer than the fuel. -/
theorem small {h : Forest.Heap ℤ} (db : Db)
    (hh : ∀ i, (h i).isSome = true → (db.objects i).isSome = true) : Forest.Small h db.fuel := by
  intro xs hn hx
  have hsub : xs.toFinset ⊆ Finset.Ico 0 (db.numObjects : ℤ) := by
    intro x hxs
    have := db.bounded x (hh x (hx x (List.mem_toFinset.mp hxs)))
    exact Finset.mem_Ico.mpr this
  have hcard := Finset.card_le_card hsub
  rw [List.toFinset_card_of_nodup hn, Int.card_Ico, Int.sub_zero, Int.toNat_natCast] at hcard
  exact Nat.lt_succ_of_le hcard

theorem kin_small (db : Db) : Forest.Small db.kin db.fuel :=
  db.small fun i hi => by simpa [kin] using hi

theorem place_small (db : Db) : Forest.Small db.place db.fuel :=
  db.small fun i hi => by simpa [place] using hi

end Db
end Database
end LambdaMoo
