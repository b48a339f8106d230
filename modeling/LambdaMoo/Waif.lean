import LambdaMoo.Properties

/-!
# Waifs

A waif is a value with properties of its own, which its class defines. It
keeps the list of properties its class had when it was last looked at, and
only those values that are not clear: a bitmap says which of the first
properties have one. The list is compared with the class's by its address.
-/

set_option autoImplicit false

namespace LambdaMoo.Database

def waifMapsz : ℕ := 3
def nMappableProps : ℕ := waifMapsz*32

/-- The value of `1 << (i % 32)`, an `int`, in an `unsigned long`. -/
def mapBit (i : ℕ) : BitVec 64 := ((1#32) <<< (i%32)).signExtend 64

/-- The words of the bitmap are `unsigned long`s, but everything stored in them comes from an
`int`. -/
structure WaifMap where
  word : Fin waifMapsz → BitVec 64
  signed : ∀ j, word j = ((word j).setWidth 32).signExtend 64

namespace WaifMap

/-- A word by its number. -/
def at' (map : WaifMap) (j : ℕ) : BitVec 64 := if h : j < waifMapsz then map.word ⟨j, h⟩ else 0

def propMapped (map : WaifMap) (i : ℕ) : Bool := map.at' (i/32) &&& mapBit i != 0

def empty : WaifMap where
  word _ := 0
  signed _ := by decide

theorem or_signed (x y : BitVec 64) (hx : x = (x.setWidth 32).signExtend 64)
    (hy : y = (y.setWidth 32).signExtend 64) :
    x ||| y = ((x ||| y).setWidth 32).signExtend 64 := by
  rw [BitVec.setWidth_or, BitVec.signExtend_or, ← hx, ← hy]

theorem setWidth_signExtend (x : BitVec 32) : (x.signExtend 64).setWidth 32 = x := by
  ext i hi
  rw [BitVec.getElem_setWidth, BitVec.getLsbD_signExtend]
  simp [hi, show i < 64 by omega]

theorem mapBit_signed (i : ℕ) : mapBit i = ((mapBit i).setWidth 32).signExtend 64 := by
  rw [mapBit, setWidth_signExtend]

def mapProp (map : WaifMap) (i : ℕ) : WaifMap where
  word j := if j.val = i/32 then map.word j ||| mapBit i else map.word j
  signed j := by
    by_cases h : j.val = i/32
    · simp only [h, if_true]
      exact or_signed _ _ (map.signed j) (mapBit_signed i)
    · simp only [h, if_false]
      exact map.signed j

end WaifMap

def countSetBits (x : BitVec 64) : ℕ :=
  let i := ((x &&& 0xAAAAAAAA) >>> 1)+(x &&& 0x55555555)
  let i := ((i &&& 0xCCCCCCCC) >>> 2)+(i &&& 0x33333333)
  let i := ((i &&& 0xF0F0F0F0) >>> 4)+(i &&& 0x0F0F0F0F)
  let i := ((i &&& 0xFF00FF00) >>> 8)+(i &&& 0x00FF00FF)
  let i := ((i &&& 0xFFFF0000) >>> 16)+(i &&& 0x0000FFFF)
  i.toNat

/-- A waif; no values are a null pointer. -/
structure Waif where
  cls : ℤ
  owner : ℤ
  propdefs : Option ℕ
  propvals : List Var
  map : WaifMap

/-- The database with the waifs in memory. -/
structure World where
  db : Db
  waifs : WaifRef → Option Waif
  next : ℕ
  bounded : ∀ w, (waifs w).isSome = true → w.ptr < next

def WaifMap.count (map : WaifMap) : ℕ :=
  ((List.range waifMapsz).map fun j => countSetBits (map.at' j)).sum

/-- The values that a waif has, for the length of its list of properties. -/
def propvalCount (length : ℕ) (map : WaifMap) : ℕ := (length-nMappableProps)+map.count

/-- The values that are allocated for a waif. -/
def countWaifPropvals (db : Db) (w : Waif) : ℕ :=
  match w.propdefs with
  | none => 0
  | some wpd => propvalCount (db.wpds wpd).length w.map

/-- Where the value of a property is, unless it is clear and has no place. -/
def propvalOffset (map : WaifMap) (i : ℕ) : Option ℕ :=
  if nMappableProps ≤ i then some (i-nMappableProps+map.count)
  else if !map.propMapped i then none
  else
    let full := ((List.range (i/32)).map fun j => countSetBits (map.at' j)).sum
    let mask := (0xFFFFFFFF : BitVec 64) >>> (32-i%32)
    some (if i%32 ≠ 0 then full+countSetBits (map.at' (i/32) &&& mask) else full)

/-- The number of a property in the class's list, and its place in the waif. -/
def findPropvalOffset (defs : List Propdef) (map : WaifMap) (name : CStr) :
    Option (ℕ × Option ℕ) :=
  (defs.findIdx? (·.named name)).map fun i => (i, propvalOffset map i)

/-- What is left of the old values, the new values so far, and where the new slot is. -/
structure Copied where
  old : List Var
  new : List Var
  result : Option ℕ

def copyNext (c : Copied) : Result Copied :=
  match c.old with
  | [] => .error (.undefined "propvals out of bounds")
  | v::old => .ok { c with old := old, new := c.new++[v] }

def copyMapped (map : WaifMap) (idx : ℕ) (c : Copied) (i : ℕ) : Result Copied :=
  if map.propMapped i then
    if i = idx then .ok { c with new := c.new++[.clear], result := some c.new.length }
    else copyNext c
  else .ok c

/-- Gives a place to a property that has none; `length` is that of the list of properties. -/
def allocPropvalOffset (length : ℕ) (w : Waif) (idx : ℕ) : Result (ℕ × Waif) :=
  if w.map.propMapped idx then
    .error (.panic "alloc_propval_offset for already allocated idx")
  else do
    let map := w.map.mapProp idx
    let cnt := propvalCount length map
    let c ← (List.range nMappableProps).foldlM (copyMapped map idx) ⟨w.propvals, [], none⟩
    let c ← (List.range' nMappableProps (length-nMappableProps)).foldlM
      (fun c _ => copyNext c) c
    match c.result with
    | some result =>
      if c.new.length = cnt then
        return (result, { w with map := map, propvals := c.new })
      else .error (.undefined "propvals out of bounds")
    | none => .error (.undefined "propvals out of bounds")

namespace Db

def genWaifPropdefs (db : Db) (oid : ℤ) : Result Db := do
  let defs := (← db.ancestors db.fuel oid).flatMap fun a => a.2.propdefs.filter (·.isWaif)
  return { db.modify oid fun o => { o with waifPropdefs := some db.nextWpd } with
    wpds := Function.update db.wpds db.nextWpd defs
    nextWpd := db.nextWpd+1 }

/-- The list that an object points to, made if there is none. -/
def classPropdefs (db : Db) (oid : ℤ) (o : Object) : Result (ℕ × Db) :=
  match o.waifPropdefs with
  | some wpd => .ok (wpd, db)
  | none => do return (db.nextWpd, ← db.genWaifPropdefs oid)

end Db

/-- Whether the waif has a place for a property. -/
def WaifMap.stored (map : WaifMap) (i : ℕ) : Bool := nMappableProps ≤ i || map.propMapped i

/-- The value of one old property, and those of the ones after it. -/
def nextVal (map : WaifMap) (i : ℕ) (ov : List Var) : Result (Var × List Var) :=
  if map.stored i then
    match ov with
    | [] => .error (.undefined "propvals out of bounds")
    | v::ov => .ok (v, ov)
  else .ok (.clear, ov)

/-- Drops the values of `n` old properties from `i` on. -/
def freeVals (map : WaifMap) : ℕ → ℕ → List Var → Result (List Var)
  | 0, _, ov => .ok ov
  | n+1, i, ov => do freeVals map n (i+1) (← nextVal map i ov).2

/-- The values for the new properties `b`, from those of the old properties `a`, which start at
number `i`. Names are the same string or not at all. -/
def transfer (map : WaifMap) : List Propdef → ℕ → List Propdef → List Var → Result (List Var)
  | [], i, a, ov => do
    let _ ← freeVals map a.length i ov
    return []
  | b::bs, i, a, ov =>
    match a.findIdx? (·.name = b.name) with
    | none => do return .clear::(← transfer map bs i a ov)
    | some k => do
      let ov ← freeVals map k i ov
      let (v, ov) ← nextVal map (i+k) ov
      return v::(← transfer map bs (i+k+1) (a.drop (k+1)) ov)

def packMap (xfer : List Var) : WaifMap :=
  (List.range (min xfer.length nMappableProps)).foldl (fun map i =>
    if (xfer.getD i .clear).type = .clear then map else map.mapProp i) WaifMap.empty

/-- The values that are kept, in the cells that are there for them. -/
def packVals (xfer : List Var) : Result (List Var) :=
  let cnt := propvalCount xfer.length (packMap xfer)
  let vals := (xfer.take nMappableProps).filter (fun v => decide (v.type ≠ .clear))
    ++xfer.drop nMappableProps
  if vals.length ≤ cnt then .ok (vals++List.replicate (cnt-vals.length) .clear)
  else .error (.undefined "propvals out of bounds")

/-- Brings a waif up to date with a list of properties. -/
def remap (db : Db) (w : Waif) (wpd : ℕ) : Result Waif :=
  if w.propvals.isEmpty then
    .ok { w with
      propdefs := some wpd
      propvals := List.replicate (propvalCount (db.wpds wpd).length w.map) .clear }
  else do
    let old ← Db.deref w.propdefs
    let xfer ← transfer w.map (db.wpds wpd) 0 (db.wpds old) w.propvals
    return { w with propdefs := some wpd, propvals := ← packVals xfer, map := packMap xfer }

def updateWaif (db : Db) (w : Waif) : Result (Db × Waif) :=
  match db.find w.cls with
  | none => .ok (db, { w with propdefs := none, propvals := [] })
  | some o =>
    if w.propdefs = o.waifPropdefs then .ok (db, w)
    else do
      let (wpd, db) ← db.classPropdefs w.cls o
      return (db, ← remap db w wpd)

namespace World

def waif (s : World) (w : WaifRef) : Result Waif := Db.deref (s.waifs w)

/-- Rewrites one waif in place. -/
def setWaif (s : World) (w : WaifRef) (waif : Waif) : World where
  db := s.db
  waifs r := if r = w then (s.waifs r).map fun _ => waif else s.waifs r
  next := s.next
  bounded r hr := by
    by_cases h : r = w
    · simp only [h, if_true, Option.isSome_map] at hr
      exact h ▸ s.bounded w hr
    · simp only [h, if_false] at hr
      exact s.bounded r hr

def addWaif (s : World) (waif : Waif) : World where
  db := s.db
  waifs r := if r.ptr = s.next then some waif else s.waifs r
  next := s.next+1
  bounded r hr := by
    by_cases h : r.ptr = s.next
    · omega
    · simp only [h, if_false] at hr
      have := s.bounded r hr
      omega

def newWaif (s : World) (cls owner : ℤ) : Result (WaifRef × World) :=
  match s.db.find cls with
  | none => .error (.panic "new_waif() called with invalid class")
  | some o => do
    let (wpd, db) ← s.db.classPropdefs cls o
    let vals := List.replicate (propvalCount (db.wpds wpd).length .empty) Var.clear
    return (⟨s.next⟩, { s with db := db }.addWaif ⟨cls, owner, some wpd, vals, .empty⟩)

def updateWaifPropdefs (s : World) (w : WaifRef) : Result World := do
  let (db, waif) ← updateWaif s.db (← s.waif w)
  return { s with db := db }.setWaif w waif

/-- The values that `refers_to` goes through in a waif. -/
def propvalsOf (s : World) (w : WaifRef) : Result (List Var) := do
  let waif ← s.waif w
  let cnt := countWaifPropvals s.db waif
  if cnt ≤ waif.propvals.length then return waif.propvals.take cnt
  else .error (.undefined "propvals out of bounds")

mutual
/-- Whether a value refers to a waif, given that for the waifs it holds. A waif and a list or
string are never at one address; a float is compared with the bits of the address. -/
def refersToIn (below : WaifRef → Result Bool) (key : WaifRef) : Var → Result Bool
  | .list l => refersToAny below key l
  | .waif w => if w = key then .ok true else below w
  | .float f => .ok (f == ⟨key.ptr⟩)
  | _ => .ok false
def refersToAny (below : WaifRef → Result Bool) (key : WaifRef) : List Var → Result Bool
  | [] => .ok false
  | v::vs => do if ← refersToIn below key v then return true else refersToAny below key vs
end

/-- Whether a waif refers to another through its values. -/
def refersBelow (s : World) (key : WaifRef) : ℕ → WaifRef → Result Bool
  | 0, _ => .error .outOfFuel
  | fuel+1, w => do refersToAny (refersBelow s key fuel) key (← s.propvalsOf w)

def refersTo (s : World) (target : Var) (key : WaifRef) : Result Bool :=
  refersToIn (s.refersBelow key s.next) key target

/-- The slot that the handle of a property points to. -/
def handleSlot (db : Db) (oid : ℤ) (n : ℕ) : Result Pval := do
  Db.deref (← db.object oid).propval[n]?

def waifPropertyAllows (db : Db) (w : Waif) (pval : Pval) (progr : ℤ) (flag : Bool) : Bool :=
  flag || (if pval.perms.chown then w.owner else pval.owner) == progr || db.isWizard progr

def prefixed (name : CStr) : CStr where
  str := waifPropPrefix::name.str
  noNul := by
    rw [List.mem_cons, not_or]
    exact ⟨by decide, name.noNul⟩

def named (name : CStr) (s : String) : Bool := mystrcasecmp name.str (ascii s) == 0

/-- The class's slot for a property that the waif has in its list. -/
def classSlot (db : Db) (cls : ℤ) (name : CStr) (msg : String) : Result (ℕ × Pval) := do
  match ← db.findProperty cls name with
  | none => .error (.panic msg)
  | some (.builtIn _) => .error (.panic "built-in property beginning with WAIF_PROP_PREFIX?!")
  | some (.slot _ n) => return (n, ← handleSlot db cls n)

/-- The value at a place, clear where there is none. -/
def valueAt (w : Waif) (place : Option ℕ) : Result Var :=
  match place with
  | none => .ok .clear
  | some idx => Db.deref w.propvals[idx]?

/-- A value, or that of the class where it is clear. -/
def orClassValue (db : Db) (cls : ℤ) (n : ℕ) (val : Var) : Result Var :=
  if val.type = .clear then do Db.slotValue n (← db.ancestors db.fuel cls) else .ok val

/-- Reads a property of a waif that is up to date: the value, or the error that is returned. -/
def readProp (db : Db) (w : Waif) (name : CStr) (progr : ℤ) : Result (Except Err Var) := do
  if named name "owner" then return .ok (.obj (BitVec.ofInt 64 w.owner))
  else if named name "class" then return .ok (.obj (BitVec.ofInt 64 w.cls))
  else if named name "wizard" then return .ok zero
  else if !db.valid w.cls then return .error .invind
  else
    let defs := db.wpds (← Db.deref w.propdefs)
    match findPropvalOffset defs w.map (prefixed name) with
    | none => return .error .propnf
    | some (_, place) =>
      let val ← valueAt w place
      let (n, pval) ← classSlot db w.cls (prefixed name) "waif propdef update failed in waif_get_prop"
      let val ← orClassValue db w.cls n val
      if !waifPropertyAllows db w pval progr pval.perms.read then return .error .perm
      else return .ok val

def waifGetProp (s : World) (r : WaifRef) (name : CStr) (progr : ℤ) :
    Result (Except Err Var × World) := do
  let s ← s.updateWaifPropdefs r
  return (← readProp s.db (← s.waif r) name progr, s)

/-- A waif with a value stored, in a new place if the property has none. -/
def storeVal (w : Waif) (length i : ℕ) (place : Option ℕ) (val : Var) : Result Waif :=
  match place with
  | some idx =>
    if idx < w.propvals.length then .ok { w with propvals := w.propvals.set idx val }
    else .error (.undefined "propvals out of bounds")
  | none => do
    let (idx, w) ← allocPropvalOffset length w i
    return { w with propvals := w.propvals.set idx val }

/-- Writes a property of a waif that is up to date. -/
def writeProp (s : World) (r : WaifRef) (w : Waif) (name : CStr) (val : Var) (progr : ℤ) :
    Result (Err × World) := do
  if named name "owner" || named name "class" then return (.perm, s)
  else if named name "wizard" then return (.perm, s)
  else if !s.db.valid w.cls then return (.invind, s)
  else
    let defs := s.db.wpds (← Db.deref w.propdefs)
    match findPropvalOffset defs w.map (prefixed name) with
    | none => return (.propnf, s)
    | some (i, place) =>
      let (_, pval) ← classSlot s.db w.cls (prefixed name) "waif propdef update failed in waif_put_prop"
      if !waifPropertyAllows s.db w pval progr pval.perms.write then return (.perm, s)
      else if ← s.refersTo val r then return (.recmove, s)
      else return (.none, s.setWaif r (← storeVal w defs.length i place val))

def waifPutProp (s : World) (r : WaifRef) (name : CStr) (val : Var) (progr : ℤ) :
    Result (Err × World) := do
  let s ← s.updateWaifPropdefs r
  s.writeProp r (← s.waif r) name val progr

end World

end LambdaMoo.Database
