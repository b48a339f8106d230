import LambdaMoo.Scanf
import LambdaMoo.WaifRefresh

/-!
# Waifs in the database file

A waif is written where it is met first, under its number; wherever it is met
again, only the number is. It is in the table before its values are written,
so that these may refer to it. A waif that is read has its number as address.
-/

set_option autoImplicit false

namespace LambdaMoo.WaifFile
open LambdaMoo.DbIo LambdaMoo.Database

/-- The waifs written so far, each at its number in the table: the number that a waif keeps is
right exactly when the table has the waif there. -/
structure Saving where
  world : World
  saved : List WaifRef

def waifLength (db : Db) (w : Waif) : ℕ :=
  match w.propdefs with
  | none => 0
  | some wpd => (db.wpds wpd).length

/-- Writes the values of `n` properties from number `i` on, each after its number; `vals` are the
values of those that have a place. -/
def writeVals (write : ℕ → Var → Saving → Result (List Byte × Saving)) (map : WaifMap) :
    ℕ → ℕ → List Var → Saving → Result (List Byte × Saving)
  | 0, _, _, s => .ok ([], s)
  | n+1, i, vals, s =>
    if map.stored i then
      match vals with
      | [] => .error (.undefined "propvals out of bounds")
      | val::vals =>
        if i < nMappableProps ∨ val.type ≠ .clear then do
          let r ← write i val s
          let t ← writeVals write map n (i+1) vals r.2
          return (dbioWriteNum (BitVec.ofNat 64 i)++r.1++t.1, t.2)
        else writeVals write map n (i+1) vals s
    else writeVals write map n (i+1) vals s

/-- The line that ends a waif. -/
def terminator : List Byte := dbioWriteString [46]

def writeWaif (write : ℕ → Var → Saving → Result (List Byte × Saving)) (w : WaifRef)
    (s : Saving) : Result (List Byte × Saving) :=
  if w ∈ s.saved then .ok (printf (format "r %d\n") [(s.saved.idxOf w:ℤ)]++terminator, s)
  else do
    let world ← s.world.updateWaifPropdefs w
    let waif ← world.waif w
    let len := waifLength world.db waif
    let r ← writeVals write waif.map len 0 waif.propvals ⟨world, s.saved++[w]⟩
    return (printf (format "c %d\n") [(s.saved.length:ℤ)]
      ++(dbioWriteNum (BitVec.ofInt 64 waif.cls)++(dbioWriteNum (BitVec.ofInt 64 waif.owner)
      ++(dbioWriteNum (BitVec.ofNat 64 len)++(r.1++(dbioWriteNum (-1)++terminator))))), r.2)

mutual
/-- `dbio_write_var` with the table of the waifs; `upper` is the unused half of an error. -/
def writeVar (o : Others) (waif : (List ℕ → BitVec 32) → WaifRef → Saving →
    Result (List Byte × Saving)) (upper : List ℕ → BitVec 32) :
    Var → Saving → Result (List Byte × Saving)
  | .list vs, s => do
    let r ← writeVars o waif upper vs s
    return (dbioWriteType .list++(dbioWriteNum (BitVec.ofNat 64 vs.length)++r.1), r.2)
  | .waif w, s => do
    let r ← waif upper w s
    return (dbioWriteType .waif++r.1, r.2)
  | v, s => .ok (dbioWriteVar o upper v, s)
def writeVars (o : Others) (waif : (List ℕ → BitVec 32) → WaifRef → Saving →
    Result (List Byte × Saving)) (upper : List ℕ → BitVec 32) :
    List Var → Saving → Result (List Byte × Saving)
  | [], s => .ok ([], s)
  | v::vs, s => do
    let r ← writeVar o waif (fun p => upper (vs.length::p)) v s
    let t ← writeVars o waif upper vs r.2
    return (r.1++t.1, t.2)
end

/-- A waif with the waifs it refers to. -/
def saveWaif (o : Others) :
    ℕ → (List ℕ → BitVec 32) → WaifRef → Saving → Result (List Byte × Saving)
  | 0, _, _, _ => .error .outOfFuel
  | n+1, upper, w, s =>
    writeWaif (fun i => writeVar o (saveWaif o n) (fun p => upper (i::p))) w s

/-- Every waif is written once, so that their number bounds the depth. -/
def saveVars (o : Others) (upper : List ℕ → BitVec 32) (vs : List Var) (s : Saving) :
    Result (List Byte × Saving) :=
  writeVars o (saveWaif o (s.world.next+1)) upper vs s

/-! ## Reading -/

/-- The file, and the waifs read so far, some of which are not complete. -/
structure Loading where
  input : Input
  waifs : List (Option Waif)

/-- Reads what has no waif in it. -/
def readFrom {α : Type} (read : Input → Result (α × Input)) (s : Loading) :
    Result (α × Loading) := do
  let r ← read s.input
  return (r.1, { s with input := r.2 })

/-- The letter and the number. -/
def readIndex (f : Input) : Result ((Byte × ℤ) × Input) :=
  if f.rest = [] then .error (.undefined "ref")
  else do
    let r ← scanf (format " %u\n") (f.advance 1)
    if r.1.length = 1 then return ((f.rest.headD 0, r.1.headD 0), r.2)
    else .error (.undefined "index")

/-- The size of `saved_waifs` with a number of waifs in it. -/
def tableSize : ℕ → ℕ
  | 0 => 256
  | n+1 => if n = tableSize n then 2*tableSize n else tableSize n

/-- The values of properties that the bitmap covers, and the number behind them. Each takes at
least one byte of the file. -/
def readMapped (read : Loading → Result (Var × Loading)) :
    ℕ → List Var → WaifMap → Loading → Result ((List Var × WaifMap × ℤ) × Loading)
  | 0, _, _, _ => .error .outOfFuel
  | n+1, vals, map, s => do
    let r ← readFrom dbioReadInt s
    if r.1 < nMappableProps ∧ -1 < r.1 then
      if vals.length < nMappableProps then do
        let v ← read r.2
        readMapped read n (vals++[v.1]) (map.mapProp r.1.toNat) v.2
      else .error (.undefined "packable out of bounds")
    else return ((vals, map, r.1), r.2)

/-- The values of the other properties, of which there are `room`; `cur` is the number of the
next one that was written. -/
def readOthers (read : Loading → Result (Var × Loading)) (room : ℕ) :
    ℕ → List Var → ℤ → Loading → Result (List Var × Loading)
  | 0, _, _, _ => .error .outOfFuel
  | n+1, vals, cur, s =>
    let vals := vals++List.replicate (cur-(nMappableProps+vals.length)).toNat .clear
    if vals.length < room then do
      let v ← read s
      let r ← readFrom dbioReadInt v.2
      if 0 ≤ r.1 then readOthers read room n (vals++[v.1]) r.1 r.2
      else return (vals++[v.1], r.2)
    else .error (.undefined "propvals out of bounds")

/-- Both loops, one after the other. -/
def readPropvals (read : Loading → Result (Var × Loading)) (room k j : ℕ) (vals : List Var)
    (map : WaifMap) (s : Loading) : Result ((List Var × WaifMap × List Var) × Loading) := do
  let mapped ← readMapped read j vals map s
  let others ← if 0 ≤ mapped.1.2.2 then readOthers read room k [] mapped.1.2.2 mapped.2
    else .ok ([], mapped.2)
  return ((mapped.1.1, mapped.1.2.1, others.1), others.2)

/-- The values, for which there are `room` cells behind those that the bitmap covers. -/
def readValues (rd : Loading → Result (Var × Loading)) (index room : ℕ) (cls owner : ℤ)
    (s : Loading) : Result (Var × Loading) := do
  let vals ← readPropvals rd room (s.input.rest.length+1) (s.input.rest.length+1) [] .empty s
  let r ← readFrom dbioReadString vals.2
  return (.waif ⟨index⟩, { r.2 with
    waifs := r.2.waifs.set index (some ⟨cls, owner, none, vals.1.1
      ++(vals.1.2.2++List.replicate (room-vals.1.2.2.length) .clear), vals.1.2.1⟩) })

/-- The rest of a waif that is written in full. -/
def readFields (read : Loading → Result (Var × Loading)) (index : ℕ) (s : Loading) :
    Result (Var × Loading) := do
  let cls ← readFrom dbioReadNum { s with waifs := s.waifs++[none] }
  let owner ← readFrom dbioReadNum cls.2
  let len ← readFrom dbioReadInt owner.2
  readValues read index (len.1-nMappableProps).toNat cls.1.toInt owner.1.toInt len.2

def readWaif (read : Loading → Result (Var × Loading)) (s : Loading) : Result (Var × Loading) := do
  let r ← readFrom readIndex s
  if r.1.1 = 114 then do
    let t ← readFrom dbioReadString r.2
    if r.1.2 < s.waifs.length then return (.waif ⟨r.1.2.toNat⟩, t.2)
    else if r.1.2 < tableSize s.waifs.length then .error (.panic "waif ref to unsaved waif!")
    else .error (.undefined "saved_waifs out of bounds")
  else if r.1.2 ≠ s.waifs.length then .error (.panic "WAIF index mismatch")
  else readFields read s.waifs.length r.2

def readAll {α : Type} (read : Loading → Result (α × Loading)) :
    ℕ → Loading → Result (List α × Loading)
  | 0, s => .ok ([], s)
  | n+1, s => do
    let v ← read s
    let vs ← readAll read n v.2
    return (v.1::vs.1, vs.2)

def readList (read : Loading → Result (Var × Loading)) (s : Loading) :
    Result (Var × Loading) := do
  let l ← readFrom dbioReadInt s
  if l.1 < 0 then .error (.undefined "new_list of a negative size")
  else do
    let vs ← readAll read l.1.toNat l.2
    return (.list vs.1, vs.2)

/-- `dbio_read_var` with the table of the waifs. -/
def readVar (o : Others) : ℕ → Loading → Result (Var × Loading)
  | 0, _ => .error .outOfFuel
  | n+1, s => do
    let r ← readFrom dbioReadInt s
    let l := oldType r.2.input.version r.1
    if l = 4 then readList (readVar o n) r.2
    else if l = 10 then readWaif (readVar o n) r.2
    else readFrom (dbioReadRest o (fun _ => .error .outOfFuel) l) r.2

/-- Every call reads at least one byte. -/
def loadVars (o : Others) (n : ℕ) (s : Loading) : Result (List Var × Loading) :=
  readAll (fun s => readVar o (s.input.rest.length+1) s) n s

/-! ## What is read for what was written -/

mutual
/-- A value with every waif at its number. -/
def image (saved : List WaifRef) : Var → Var
  | .list vs => .list (images saved vs)
  | .waif w => .waif ⟨saved.idxOf w⟩
  | v => v
def images (saved : List WaifRef) : List Var → List Var
  | [] => []
  | v::vs => image saved v::images saved vs
end

mutual
/-- The waifs of a value have been written. -/
def Within (saved : List WaifRef) : Var → Prop
  | .list vs => AllWithin saved vs
  | .waif w => w ∈ saved
  | _ => True
def AllWithin (saved : List WaifRef) : List Var → Prop
  | [] => True
  | v::vs => Within saved v ∧ AllWithin saved vs
end

mutual
/-- No string has a byte that ends it early, and no list is longer than an `int` can say. -/
def Storable : Var → Prop
  | .str s => 0 ∉ s ∧ 10 ∉ s
  | .list vs => vs.length < 2^31 ∧ AllStorable vs
  | _ => True
def AllStorable : List Var → Prop
  | [] => True
  | v::vs => Storable v ∧ AllStorable vs
end

/-- The object numbers have 64 bits, and the values can be in the file. -/
structure Waif.Storable (w : Waif) : Prop where
  cls : -2^63 ≤ w.cls ∧ w.cls < 2^63
  owner : -2^63 ≤ w.owner ∧ w.owner < 2^63
  vals : ∀ v ∈ w.propvals, WaifFile.Storable v

/-- A waif that was read, against the one that was written: the properties have the same places
and values. It knows no list of properties yet. -/
structure Restored (saved : List WaifRef) (length : ℕ) (w l : Waif) : Prop where
  cls : l.cls = w.cls
  owner : l.owner = w.owner
  propdefs : l.propdefs = none
  count : l.propvals.length = propvalCount length l.map
  within : ∀ i, l.map.propMapped i = true → i < length
  stored : ∀ i, i < length → l.map.stored i = w.map.stored i
  value : ∀ i, i < length → l.value i = image saved (w.value i)

end LambdaMoo.WaifFile
