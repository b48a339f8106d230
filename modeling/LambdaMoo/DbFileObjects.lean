import LambdaMoo.DbFile
import LambdaMoo.Validate

/-!
# Written objects are read back

The objects come back one after the other, without the programs of their
verbs. `Legal` says which databases the server may have in memory.
-/

set_option autoImplicit false

namespace LambdaMoo.DbFile
open LambdaMoo.DbIo LambdaMoo.Decimal

variable {P : Type}

theorem scanf_bind {β : Type} {ds : List Directive} {zs : List ℤ}
    {k : List ℤ × Input → Result (β × Input)} {cs : List Byte} {b : β}
    (ha : ∀ rest, Aligned ds zs (cs ++ rest)) (hk : Reads (fun f => k (zs, f)) cs b) :
    Reads (fun f => scanf ds f >>= k) (printf ds zs ++ cs) b := by
  intro f rest hf
  rw [List.append_assoc] at hf
  obtain ⟨w, hw⟩ := hk (f.past (printf ds zs) (cs ++ rest) f.buffer) rest rfl
  refine ⟨w, bind_ok.mpr ⟨_, scanf_printf ds zs _ (ha rest) f hf, ?_⟩⟩
  rw [past_past] at hw
  exact hw

/-- A routine that reads all that is left of the file. -/
def Loads {α : Type} (read : Input → Result (α × Input)) (bs : List Byte) (a : α) : Prop :=
  ∀ f : Input, f.rest = bs → ∃ g, read f = .ok (a, g)

theorem Reads.loads {α β : Type} {read : Input → Result (α × Input)} {bs cs : List Byte} {a : α}
    {k : α × Input → Result (β × Input)} {b : β} (h : Reads read bs a)
    (hk : Loads (fun f => k (a, f)) cs b) : Loads (fun f => read f >>= k) (bs ++ cs) b := by
  intro f hf
  obtain ⟨u, hu⟩ := h f cs hf
  obtain ⟨g, hg⟩ := hk (f.past bs cs u) rfl
  exact ⟨g, bind_ok.mpr ⟨_, hu, hg⟩⟩

theorem scanf_loads {β : Type} {ds : List Directive} {zs : List ℤ}
    {k : List ℤ × Input → Result (β × Input)} {cs : List Byte} {b : β} (ha : Aligned ds zs cs)
    (hk : ∀ f : Input, f.rest = cs → ∃ g, k (zs, f) = .ok (b, g)) :
    Loads (fun f => scanf ds f >>= k) (printf ds zs ++ cs) b := by
  intro f hf
  obtain ⟨g, hg⟩ := hk (f.past (printf ds zs) cs f.buffer) rfl
  exact ⟨g, bind_ok.mpr ⟨_, scanf_printf ds zs cs ha f hf, hg⟩⟩

/-- A routine that reads each element reads them all, one after the other. -/
theorem readMany_flatMap {α β : Type} {read : Input → Result (α × Input)} {w : β → List Byte}
    {v : β → α} (ys : List β) (h : ∀ y ∈ ys, Reads read (w y) (v y)) :
    Reads (readMany read ys.length) (ys.flatMap w) (ys.map v) := by
  induction ys with
  | nil => exact reads_nil []
  | cons y ys ih =>
    apply readMany_reads_cons
    · exact h y (by simp)
    · exact ih fun z hz => h z (by simp [hz])

theorem truncate_signExtend {w : ℕ} (hw : w ≤ 64) (x : BitVec w) :
    (x.signExtend 64).truncate w = x := by
  ext i hi
  rw [BitVec.truncate, BitVec.getElem_setWidth, BitVec.getLsbD_signExtend]
  simp [hi, show i < 64 by omega]

theorem strIntern_str (s : CStr) : strIntern s.str = s := by
  obtain ⟨s, hs⟩ := s
  simp only [strIntern, CStr.mk.injEq]
  exact cstr_of_not_mem hs

/-- A verb before its program is read. -/
def Verbdef.bare (v : Verbdef P) : Verbdef P := {v with program := none}

/-- The last of a row of routines, with the value made of all that was read. -/
theorem Reads.last {α β : Type} {read : Input → Result (α × Input)} {bs : List Byte} {a : α}
    {k : α × Input → Result (β × Input)} {b : β} (h : Reads read bs a)
    (hk : ∀ f, k (a, f) = .ok (b, f)) : Reads (fun f => read f >>= k) bs b := by
  have hnil : Reads (fun f => k (a, f)) [] b := by
    rw [funext hk]
    exact reads_nil b
  simpa using h.bind hnil

theorem readVerbdef_reads (v : Verbdef P) (hn : 10 ∉ v.name.str) :
    Reads readVerbdef (writeVerbdef v) v.bare := by
  rw [writeVerbdef]
  simp only [List.append_assoc]
  apply (dbioReadString_reads v.name.str v.name.noNul hn).bind
  apply (dbioReadNum_reads v.owner).bind
  apply (dbioReadNum_reads _).bind
  apply Reads.last (dbioReadNum_reads _)
  intro f
  simp [Verbdef.bare, strIntern_str, truncate_signExtend]

theorem readPropdef_reads (p : Propdef) (hn : 10 ∉ p.name.str) (hp : p = dbprivNewPropdef p.name) :
    Reads readPropdef (writePropdef p) p := by
  apply Reads.last (dbioReadString_reads p.name.str p.name.noNul hn)
  intro f
  simp only [strIntern_str]
  rw [← hp]

theorem readPropval_reads {o : Others} {upper : List ℕ → BitVec 32} (p : Pval)
    (hv : Reads (dbioReadVar o) (dbioWriteVar o upper p.var) p.var) :
    Reads (readPropval o) (writePropval o upper p) p := by
  rw [writePropval, List.append_assoc]
  apply hv.bind
  apply (dbioReadNum_reads p.owner).bind
  apply Reads.last (dbioReadNum_reads _)
  intro f
  simp [truncate_signExtend]

theorem readArray_reads {α : Type} {read : Input → Result (α × Input)} {xs : List α}
    {bs : List Byte} (hl : xs.length < 2^31) (h : Reads (readMany read xs.length) bs xs) :
    Reads (readArray read) (writeCount xs.length ++ bs) xs := by
  apply (dbioReadInt_reads _ hl).bind
  have hn : ¬((xs.length:ℤ) < 0) := by omega
  simp only [hn, if_false, Int.toNat_natCast]
  exact h

/-- What the server keeps to about one object: its sizes fit an `int`, its names are lines, and the
hashes are those of the names. -/
structure Object.Legal (o : Object P) : Prop where
  verbs : o.verbdefs.length < 2^31
  props : o.propdefs.length < 2^31
  slots : o.propval.length < 2^31
  name : 10 ∉ o.name.str
  verbNames : ∀ v ∈ o.verbdefs, 10 ∉ v.name.str
  propNames : ∀ p ∈ o.propdefs, 10 ∉ p.name.str ∧ p = dbprivNewPropdef p.name

def Object.bare (o : Object P) : Object P := {o with verbdefs := o.verbdefs.map Verbdef.bare}

theorem readMany_zipIdx {o : Others} {upper : ℕ → List ℕ → BitVec 32} {ps : List Pval}
    (h : ∀ k p, ps[k]? = some p → Reads (dbioReadVar o) (dbioWriteVar o (upper k) p.var) p.var) :
    Reads (readMany (readPropval o) ps.length)
      (ps.zipIdx.flatMap fun s => writePropval o (upper s.2) s.1) ps := by
  have hall := readMany_flatMap (v := Prod.fst) ps.zipIdx fun s hs =>
    readPropval_reads s.1 (h s.2 s.1 (List.mem_zipIdx_iff_getElem?.mp hs))
  simpa using hall

/-- The lines of an object after the first one. -/
def writeFields (o : Object P) (slots : List Byte) : List Byte :=
  dbioWriteString o.name.str ++ (dbioWriteString [] ++ (dbioWriteNum (o.flags.signExtend 64) ++
    (dbioWriteNum o.owner ++ (dbioWriteNum o.location ++ (dbioWriteNum o.contents ++
    (dbioWriteNum o.next ++ (dbioWriteNum o.parent ++ (dbioWriteNum o.child ++
    (dbioWriteNum o.sibling ++ (writeCount o.verbdefs.length ++
    (o.verbdefs.flatMap writeVerbdef ++ ((writeCount o.propdefs.length ++
    o.propdefs.flatMap writePropdef) ++ (writeCount o.propval.length ++ slots)))))))))))))

theorem readFields_reads {r : Routines P} {o : Object P} (ho : o.Legal) {bs : List Byte}
    (h : Reads (readMany (readPropval r.others) o.propval.length) bs o.propval) :
    Reads (readFields r) (writeFields o bs) o.bare := by
  have hverbs : Reads (readMany readVerbdef o.verbdefs.length) (o.verbdefs.flatMap writeVerbdef)
      (o.verbdefs.map Verbdef.bare) :=
    readMany_flatMap _ fun v hv => readVerbdef_reads v (ho.verbNames v hv)
  have hprops : Reads (readMany readPropdef o.propdefs.length) (o.propdefs.flatMap writePropdef)
      o.propdefs := by
    have := readMany_flatMap (v := id) o.propdefs fun p hp =>
      readPropdef_reads p (ho.propNames p hp).1 (ho.propNames p hp).2
    simpa using this
  apply (dbioReadString_reads o.name.str o.name.noNul ho.name).bind
  apply (dbioReadString_reads [] (by simp) (by simp)).bind
  apply (dbioReadNum_reads _).bind
  apply (dbioReadNum_reads o.owner).bind
  apply (dbioReadNum_reads o.location).bind
  apply (dbioReadNum_reads o.contents).bind
  apply (dbioReadNum_reads o.next).bind
  apply (dbioReadNum_reads o.parent).bind
  apply (dbioReadNum_reads o.child).bind
  apply (dbioReadNum_reads o.sibling).bind
  apply (dbioReadInt_reads _ ho.verbs).bind
  apply Reads.bind hverbs
  apply (readArray_reads ho.props hprops).bind
  apply Reads.last (readArray_reads ho.slots h)
  intro f
  simp [Object.bare, strIntern_str, truncate_signExtend]

/-- A database as the server keeps it: its hierarchies are in order, and each object has a slot for
each property that it or an ancestor defines. -/
structure Legal (db : Image P) : Prop where
  hierarchies : Hierarchical db.objects
  layout : ∀ i o, db.objects.find i = some o →
    db.objects.dbprivCountProperties i = .ok o.propval.length
  objects : ∀ i o, db.objects.find i = some o → o.Legal
  programs : nprogs db.objects < 2^31
  users : db.users.length < 2^31

/-- The parts with formats of their own are read back, and no text starts with white space where a
format before it skips that. -/
structure RoundTrips (r : Routines P) (db : Image P) : Prop where
  values : ∀ i o, db.objects.find i = some o → ∀ k p, o.propval[k]? = some p →
    Reads (dbioReadVar r.others) (dbioWriteVar r.others (db.upper i k) p.var) p.var
  programs : ∀ i o, db.objects.find i = some o → ∀ v ∈ o.verbdefs, ∀ p, v.program = some p →
    Reads (r.readProgram currentVersion) (dbioWriteProgram r p) (some p) ∧
      Solid (dbioWriteProgram r p)
  tasks : db.tasks ≠ [] ∧ Solid db.tasks
  rest : ∀ f : Input, f.rest = db.tasks ++ db.connections → ∃ g h,
    r.readTaskQueue f = .ok (true, g) ∧ r.readActiveConnections g = .ok (true, h)

theorem objidFormat_eq : objidFormat = [.byte 35, .num .d] := rfl

theorem objectFormat_eq : objectFormat = [.byte 35, .num .d, .byte 10] := rfl

theorem recycledFormat_eq : recycledFormat =
    [.byte 35, .num .d, .byte 32, .byte 114, .byte 101, .byte 99, .byte 121, .byte 99, .byte 108,
      .byte 101, .byte 100, .byte 10] := rfl

theorem toInt_ofNat {n : ℕ} (h : n < 2^31) : (BitVec.ofNat 64 n).toInt = n := by
  rw [BitVec.toInt_eq_toNat_of_lt (by simp; omega)]
  simp
  omega

theorem store_nat {n : ℕ} (h : n < 2^31) : Conversion.d.store n = some (n:ℤ) := by
  have hb : (-2^63:ℤ) ≤ n ∧ (n:ℤ) < 2^63 := by omega
  rw [Conversion.store, if_pos hb]

/-- The first line of an object up to where its two forms part. -/
theorem objid_aligned {n : ℕ} (h : n < 2^31) {bs : List Byte} (hs : Stops bs) :
    Aligned objidFormat [(n:ℤ)] bs := by
  rw [objidFormat_eq]
  refine ⟨fun h => ?_, store_nat h, hs, rfl⟩
  cases h

theorem readRecycled_reads {r : Routines P} {n : ℕ} (hn : n < 2^31) (i : ℕ) {t : Table P}
    (ht : t.length = n) : Reads (readObject r i t)
      (printf objidFormat [(n:ℤ)] ++ ([32, 114, 101, 99, 121, 99, 108, 101, 100] ++ [10]))
      (.ok (t ++ [none])) := by
  apply scanf_bind
  · exact fun rest => objid_aligned hn (stops_cons (by decide))
  · have h1 : printf (format " recycled\n") [] =
        ([32, 114, 101, 99, 121, 99, 108, 101, 100] ++ [10] : Str) := rfl
    simp only [ht, ne_eq, not_true_eq_false, if_false]
    apply Reads.last (fgets_reads (by decide) (by decide) (by decide))
    intro f
    rw [h1]
    exact if_pos rfl

theorem readPresent_reads {r : Routines P} {n : ℕ} (hn : n < 2^31) (i : ℕ) {t : Table P}
    (ht : t.length = n) {o : Object P} {bs : List Byte} (h : Reads (readFields r) bs o.bare) :
    Reads (readObject r i t) (printf objidFormat [(n:ℤ)] ++ ([10] ++ bs))
      (.ok (t ++ [some o.bare])) := by
  apply scanf_bind
  · exact fun rest => objid_aligned hn (stops_cons (by decide))
  · have h1 : ([10] : Str) ≠ printf (format " recycled\n") [] := by decide
    have h2 : printf (format "\n") [] = [10] := rfl
    simp only [ht, ne_eq, not_true_eq_false, if_false]
    apply (fgets_reads (s := []) (by decide) (by decide) (by decide)).bind
    simp only [List.nil_append, h1, h2, if_false, not_true_eq_false]
    apply Reads.last h
    intro f
    rfl

theorem readLoop_nil {σ : Type} {step : ℕ → σ → Input → Result (Except Refusal σ × Input)} (i : ℕ)
    (s : σ) : Reads (readLoop step 0 i s) [] (.ok s) :=
  reads_nil (Except.ok s)

theorem readLoop_cons {σ : Type} {step : ℕ → σ → Input → Result (Except Refusal σ × Input)}
    {n i : ℕ} {s s' : σ} {bs cs : List Byte} {x : Except Refusal σ}
    (h : Reads (step i s) bs (.ok s')) (ht : Reads (readLoop step n (i+1) s') cs x) :
    Reads (readLoop step (n+1) i s) (bs ++ cs) x :=
  h.bind ht

/-- A loop does its rounds in two parts. -/
theorem readLoop_add {σ : Type} {step : ℕ → σ → Input → Result (Except Refusal σ × Input)}
    {n m i : ℕ} {s : σ} (f : Input) :
    readLoop step (n+m) i s f = readLoop step n i s f >>= fun (x, f) =>
      match x with
      | .error e => .ok (.error e, f)
      | .ok s => readLoop step m (i+n) s f := by
  induction n generalizing i s f with
  | zero => simp [readLoop, bind, Except.bind]
  | succ n ih =>
    rw [Nat.succ_add, readLoop, readLoop]
    cases hx : step i s f with
    | error e => rfl
    | ok y =>
      obtain ⟨x, f'⟩ := y
      cases x with
      | error e => rfl
      | ok s' =>
        simp only [bind, Except.bind] at ih ⊢
        rw [ih, Nat.succ_add_eq_add_succ]

theorem readLoop_append {σ : Type} {step : ℕ → σ → Input → Result (Except Refusal σ × Input)}
    {n m i : ℕ} {s s' : σ} {bs cs : List Byte} {x : Except Refusal σ}
    (h : Reads (readLoop step n i s) bs (.ok s'))
    (ht : Reads (readLoop step m (i+n) s') cs x) :
    Reads (readLoop step (n+m) i s) (bs ++ cs) x := by
  rw [funext readLoop_add]
  exact h.bind ht

section Objects
variable {r : Routines P} {db : Image P} (hl : Legal db) (hr : RoundTrips r db)
include hl hr

theorem readObject_reads {n : ℕ} {x : Option (Object P)} (hx : db.objects[n]? = some x) :
    ∃ bs, writeObject r db (BitVec.ofNat 64 n) = .ok bs ∧ (∀ rest, Solid (bs ++ rest)) ∧
      ∀ i (t : Table P), t.length = n →
        Reads (readObject r i t) bs (.ok (t ++ [x.map Object.bare])) := by
  have hlt := (List.getElem?_eq_some_iff.mp hx).1
  have hn : n < 2^31 := Nat.lt_trans hlt hl.hierarchies.small
  have hfind := Table.find_ofNat hl.hierarchies.small hlt hx
  cases x with
  | none =>
    refine ⟨_, ?_, fun rest => solid_cons (by decide), fun i t ht => readRecycled_reads hn i ht⟩
    rw [writeObject, hfind]
    simp [toInt_ofNat hn, recycledFormat_eq, objidFormat_eq, printf]
  | some o =>
    have ho := readFields_reads (hl.objects _ o hfind) (readMany_zipIdx (hr.values _ o hfind))
    refine ⟨_, ?_, fun rest => solid_cons (by decide), fun i t ht => readPresent_reads hn i ht ho⟩
    rw [writeObject, hfind]
    simp only [hl.layout _ o hfind, propvals, Nat.le_refl, if_true, List.take_length, bind,
      Except.bind, pure, Except.pure, toInt_ofNat hn, objectFormat_eq, objidFormat_eq, printf,
      writeFields, List.append_assoc, List.cons_append, List.nil_append, List.append_nil]

/-- The objects from number `n` on are read after those before them. -/
theorem readObjects_reads (k n : ℕ) (hk : n+k = db.objects.length) :
    ∃ texts, ((List.range' n k).map (BitVec.ofNat 64)).mapM (writeObject r db) = .ok texts ∧
      (∀ rest, Solid rest → Solid (texts.flatten ++ rest)) ∧ ∀ i, Reads (readLoop (readObject r) k i ((db.objects.take n).map (Option.map Object.bare)))
        texts.flatten (.ok (db.objects.map (Option.map Object.bare))) := by
  induction k generalizing n with
  | zero =>
    refine ⟨[], rfl, fun rest h => h, fun i => ?_⟩
    rw [List.take_of_length_le (by omega)]
    exact readLoop_nil i _
  | succ k ih =>
    obtain ⟨x, hx⟩ : ∃ x, db.objects[n]? = some x := ⟨_, List.getElem?_eq_getElem (by omega)⟩
    obtain ⟨bs, hbs, hsolid, hread⟩ := readObject_reads hl hr hx
    obtain ⟨texts, htexts, -, hloop⟩ := ih (n+1) (by omega)
    refine ⟨bs::texts, ?_, fun rest _ => ?_, fun i => ?_⟩
    · rw [List.range'_succ, List.map_cons, List.mapM_cons, hbs, htexts]
      rfl
    · rw [List.flatten_cons, List.append_assoc]
      exact hsolid _
    · rw [List.flatten_cons]
      have hlen : ((db.objects.take n).map (Option.map Object.bare)).length = n := by
        simp
        omega
      have htake : db.objects.take (n+1) = db.objects.take n ++ [x] := by
        rw [List.take_add_one, hx]
        rfl
      have := hloop (i+1)
      rw [htake, List.map_append] at this
      exact readLoop_cons (hread i _ hlen) this

end Objects

end LambdaMoo.DbFile
