import LambdaMoo.Properties

/-!
# Verbs

The search for a callable verb up the ancestors, and the cache in front of it.
An entry of the cache is for the first ancestor with verbs and for a name up to
case, and remembers failures too.
-/

set_option autoImplicit false

namespace LambdaMoo.Database

inductive Star where
  | none | inner | last
  deriving DecidableEq

/-- The inner loop of `verbcasecmp`: whether the word matches one of the names, and where in the
names the loop stopped. -/
def scanName : Star → Str → Str → Bool × Str
  | star, [], w => (w = [] ∨ star = .last, [])
  | star, c::v, w =>
    if c = 42 then scanName (if v = [] ∨ v.head? = some 32 then .last else .inner) v w
    else if c = 32 then (w = [] ∨ star = .last, c::v)
    else match w with
      | [] => (star ≠ .none, c::v)
      | d::w => if cmap d = cmap c then scanName star v w else (star = .last, c::v)

/-- Where the next of the names begins. -/
def nextName (v : Str) : Str := (v.dropWhile (· ≠ 32)).dropWhile (· = 32)

theorem scanName_length (star : Star) (v w : Str) : (scanName star v w).2.length ≤ v.length := by
  induction v generalizing star w with
  | nil => simp [scanName]
  | cons c v ih =>
    rw [scanName.eq_def]
    dsimp only
    split
    · exact Nat.le_succ_of_le (ih _ w)
    · split
      · exact le_refl _
      · split
        · exact le_refl _
        · split
          · exact Nat.le_succ_of_le (ih star _)
          · exact le_refl _

theorem nextName_length (c : Byte) (v : Str) : (nextName (c::v)).length ≤ v.length := by
  rw [nextName, List.dropWhile_cons]
  by_cases hc : c = 32
  · subst hc
    simp only [ne_eq, not_true_eq_false, decide_false, Bool.false_eq_true, if_false]
    rw [List.dropWhile_cons]
    simpa using (List.dropWhile_sublist _).length_le
  · simp only [ne_eq, hc, not_false_eq_true, decide_true, if_true]
    exact (List.dropWhile_sublist _).length_le.trans (List.dropWhile_sublist _).length_le

/-- The scan of `verbcasecmp`: whether a word is one of the names of a verb, by their contents. -/
def verbcasecmp (verb word : Str) : Bool :=
  match verb with
  | [] => false
  | c::v =>
    if (scanName .none (c::v) word).1 then true
    else verbcasecmp (nextName (scanName .none (c::v) word).2) word
termination_by verb.length
decreasing_by
  have hle := scanName_length .none (c::v) word
  cases hr : (scanName .none (c::v) word).2 with
  | nil => simp [nextName]
  | cons d r =>
    rw [hr] at hle
    have := nextName_length d r
    simp only [List.length_cons] at hle ⊢
    omega

/-- A verb as a search sees it. -/
def Object.verbs (o : Object) : List (ℕ × CStr × Bool) :=
  o.verbdefs.map fun v => (v.ptr, v.name, v.perms.exec)

def findVerbdefByName (o : Object) (vname : CStr) (checkXBit : Bool) : Option Verbdef :=
  o.verbdefs.find? fun v => verbcasecmp v.name.str vname.str && (!checkXBit || v.perms.exec)

/-- The definer and the verb that a search through these objects finds. -/
def searchVerb (verb : CStr) : List (ℤ × Object) → Option (ℤ × ℕ)
  | [] => none
  | (oid, o)::rest =>
    match findVerbdefByName o verb true with
    | some v => some (oid, v.ptr)
    | none => searchVerb verb rest

def defaultVcSize : ℕ := 7507

def vcHash (verb : CStr) (key : ℤ) : BitVec 32 := strHash verb.str ^^^ ~~~(BitVec.ofInt 32 key)

namespace Db

/-- `db_find_callable_verb` without the cache. -/
def searchCallableVerb (db : Db) (oid : ℤ) (verb : CStr) : Result (Option (ℤ × ℕ)) := do
  return searchVerb verb (← db.ancestors db.fuel oid)

/-- `db_find_callable_verb` with the cache. -/
def findCallableVerb (db : Db) (oid : ℤ) (verb : CStr) : Result (Option (ℤ × ℕ) × Db) := do
  let table := db.vcTable.getD fun _ => []
  let chain := (← db.ancestors db.fuel oid).dropWhile fun a => a.2.verbdefs = []
  let firstParentWithVerbs := (chain.head?.map Prod.fst).getD nothing
  let hash := vcHash verb firstParentWithVerbs
  let bucket := hash.toNat%defaultVcSize
  match (table bucket).find? fun vc => vc.hash = hash ∧ firstParentWithVerbs = vc.oidKey ∧
      mystrcasecmp verb.str vc.verbname.str = 0 with
  | some vc => return (vc.h, { db with vcTable := some table })
  | none =>
    let h := searchVerb verb chain
    return (h, { db with vcTable := some (Function.update table bucket
      (⟨hash, firstParentWithVerbs, verb, h⟩::table bucket)) })

def addVerb (db : Db) (oid : ℤ) (verb : Verbdef) : Db :=
  db.affectedCallableVerbLookup.modify oid fun o => { o with verbdefs := o.verbdefs++[verb] }

/-- The verb is taken by its address out of the list of its definer. -/
def deleteVerb (db : Db) (definer : ℤ) (verbdef : ℕ) : Result Db := do
  match (← db.object definer).verbdefs.findIdx? (·.ptr = verbdef) with
  | some i => return db.affectedCallableVerbLookup.modify definer fun o => { o with
      verbdefs := o.verbdefs.eraseIdx i }
  | none => .error (.undefined "null pointer")

/-- Rewrites a verb through a handle. -/
def setVerb (db : Db) (definer : ℤ) (verbdef : ℕ) (f : Verbdef → Verbdef) : Db :=
  db.modify definer fun o => { o with
    verbdefs := o.verbdefs.map fun v => if v.ptr = verbdef then f v else v }

def setVerbNames (db : Db) (definer : ℤ) (verbdef : ℕ) (names : CStr) : Db :=
  db.affectedCallableVerbLookup.setVerb definer verbdef fun v => { v with name := names }

def setVerbOwner (db : Db) (definer : ℤ) (verbdef : ℕ) (owner : ℤ) : Db :=
  db.setVerb definer verbdef fun v => { v with owner := owner }

def setVerbFlags (db : Db) (definer : ℤ) (verbdef : ℕ) (flags : VerbPerms) : Db :=
  db.affectedCallableVerbLookup.setVerb definer verbdef fun v => { v with perms := flags }

def setVerbProgram (db : Db) (definer : ℤ) (verbdef : ℕ) (program : Option ℕ) : Db :=
  db.setVerb definer verbdef fun v => { v with program := program }

def setVerbArgSpecs (db : Db) (definer : ℤ) (verbdef : ℕ) (dobj : ℕ) (prep : ℤ) (iobj : ℕ) : Db :=
  db.affectedCallableVerbLookup.setVerb definer verbdef fun v => { v with
    dobj := dobj, prep := prep, iobj := iobj }

end Db
end LambdaMoo.Database
