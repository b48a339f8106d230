import LambdaMoo.DbFileObjects

/-!
# A written database is read back

The validation leaves the objects alone, and the programs then find their
verbs by number and position.
-/

set_option autoImplicit false

namespace LambdaMoo.DbFile
open LambdaMoo.DbIo LambdaMoo.Decimal

variable {P : Type}

theorem programFormat_eq : programFormat = [.byte 35, .num .d, .byte 58, .num .d, .byte 10] := rfl

theorem dbFindIndexedVerb_eq {o : Object P} (ho : o.verbdefs.length < 2^31) {k : ℕ}
    (hk : k < o.verbdefs.length) :
    dbFindIndexedVerb o (BitVec.ofInt 32 ((k:ℤ)+1)) = some k := by
  have hz : BitVec.ofInt 32 ((k:ℤ)+1) = BitVec.ofNat 32 (k+1) := by
    rw [← BitVec.ofInt_natCast]
    rfl
  rw [dbFindIndexedVerb, hz, List.find?_range_eq_some]
  refine ⟨by simp, List.mem_range.mpr hk, ?_⟩
  intro j hj
  simp only [Bool.not_eq_true', decide_eq_false_iff_not]
  intro h
  have := congrArg BitVec.toNat h
  simp only [BitVec.toNat_ofNat] at this
  omega

theorem dbioWriteProgram_ne_nil (r : Routines P) (p : P) : dbioWriteProgram r p ≠ [] := by
  intro h
  have := (List.append_eq_nil_iff.mp h).2
  cases this

theorem program_aligned {n k : ℕ} (hn : n < 2^31) (hk : k < 2^31) {bs : List Byte} (hs : Solid bs) :
    Aligned programFormat [(n:ℤ), (k:ℤ)] bs := by
  rw [programFormat_eq]
  refine ⟨fun h => ?_, store_nat hn, stops_cons (by decide), fun h => ?_, store_nat hk,
    stops_cons (by decide), fun _ => hs, rfl⟩
  · cases h
  · cases h

/-- A program goes to the verb it was written for. -/
theorem readVerbProgram_reads {r : Routines P} {t : Table P} (ht : t.length < 2^31) {n k : ℕ}
    {o : Object P} (hn : t[n]? = some (some o)) (ho : o.verbdefs.length < 2^31)
    (hk : k < o.verbdefs.length) {p : P}
    (hp : Reads (r.readProgram currentVersion) (dbioWriteProgram r p) (some p))
    (hs : Solid (dbioWriteProgram r p)) (i : ℕ) :
    Reads (readVerbProgram r currentVersion i t)
      (printf programFormat [(n:ℤ), (k:ℤ)] ++ dbioWriteProgram r p)
      (.ok (dbSetVerbProgram t (BitVec.ofNat 64 n) k p)) := by
  have hlt := (List.getElem?_eq_some_iff.mp hn).1
  have hfind := Table.find_ofNat ht hlt hn
  apply scanf_bind
  · intro rest
    exact program_aligned (by omega) (by omega) (hs.append (dbioWriteProgram_ne_nil r p) rest)
  · simp only [BitVec.ofInt_natCast, hfind, dbFindIndexedVerb_eq ho hk]
    apply Reads.last hp
    intro f
    rfl

theorem modify_set {α : Type} (l : List α) (n : ℕ) (a : α) (f : α → α) :
    (l.set n a).modify n f = l.set n (f a) := by
  apply List.ext_getElem?
  intro m
  rw [List.getElem?_modify, List.getElem?_set, List.getElem?_set]
  by_cases hm : n = m
  · subst hm
    by_cases hl : n < l.length <;> simp [hl]
  · simp [hm]

theorem modify_length {α : Type} (xs : List α) (y : α) (ys : List α) (f : α → α) :
    (xs ++ y::ys).modify xs.length f = xs ++ f y::ys := by
  induction xs with
  | nil => rfl
  | cons x xs ih => simp [ih]

/-- The programs of an object's verbs are read one after the other. -/
theorem readVerbs_reads {r : Routines P} {t : Table P} (ht : t.length < 2^31) {n : ℕ}
    (hn : n < t.length) (o : Object P) (done rest : List (Verbdef P))
    (ho : (done ++ rest).length < 2^31)
    (hp : ∀ v ∈ rest, ∀ p, v.program = some p →
      Reads (r.readProgram currentVersion) (dbioWriteProgram r p) (some p) ∧
        Solid (dbioWriteProgram r p)) (i : ℕ) :
    Reads (readLoop (readVerbProgram r currentVersion) (rest.countP (·.program.isSome)) i
        (t.set n (some {o with verbdefs := done ++ rest.map Verbdef.bare})))
      (writeVerbs r (BitVec.ofNat 64 n) done.length rest)
      (.ok (t.set n (some {o with verbdefs := done ++ rest}))) := by
  induction rest generalizing done i with
  | nil =>
    rw [List.countP_nil, writeVerbs, List.map_nil]
    exact readLoop_nil i _
  | cons v rest ih =>
    have hsplit : done ++ v::rest = (done ++ [v]) ++ rest := by simp
    have hrest := ih (done ++ [v]) (by rwa [← hsplit]) fun w hw => hp w (by simp [hw])
    rw [List.length_append, List.length_singleton] at hrest
    rw [List.map_cons, writeVerbs, hsplit]
    cases hv : v.program with
    | none =>
      have hbare : v.bare = v := by rw [Verbdef.bare, ← hv]
      rw [List.countP_cons_of_neg (by simp [hv]), hbare, List.nil_append,
        show done ++ v::rest.map Verbdef.bare = (done ++ [v]) ++ rest.map Verbdef.bare by simp]
      exact hrest i
    | some p =>
      obtain ⟨hread, hsolid⟩ := hp v (by simp) p hv
      rw [List.countP_cons_of_pos (by simp [hv])]
      have hset : dbSetVerbProgram
          (t.set n (some {o with verbdefs := done ++ v.bare::rest.map Verbdef.bare}))
          (BitVec.ofNat 64 n) done.length p =
          t.set n (some {o with verbdefs := (done ++ [v]) ++ rest.map Verbdef.bare}) := by
        rw [dbSetVerbProgram, Table.modify, BitVec.toNat_ofNat, Nat.mod_eq_of_lt (by omega),
          modify_set, Option.map_some, modify_length]
        simp [Verbdef.bare, ← hv]
      have hfirst := readVerbProgram_reads (r := r) (n := n) (k := done.length)
        (t := t.set n (some {o with verbdefs := done ++ v.bare::rest.map Verbdef.bare}))
        (by simpa using ht) (by simp [hn]; rfl) (by simpa using ho) (by simp) hread hsolid i
      rw [hset] at hfirst
      have htoInt : (BitVec.ofNat 64 n).toInt = n := toInt_ofNat (by omega)
      rw [htoInt]
      exact readLoop_cons hfirst (hrest (i+1))

/-- The table once the programs of the first `n` objects are read. -/
def halfway (t : Table P) (n : ℕ) : Table P :=
  t.take n ++ (t.drop n).map (Option.map Object.bare)

theorem halfway_succ {t : Table P} {n : ℕ} {x : Option (Object P)} (hx : t[n]? = some x) :
    halfway t n = t.take n ++ x.map Object.bare::(t.drop (n+1)).map (Option.map Object.bare) ∧
      halfway t (n+1) = t.take n ++ x::(t.drop (n+1)).map (Option.map Object.bare) := by
  obtain ⟨hlt, rfl⟩ := List.getElem?_eq_some_iff.mp hx
  constructor
  · rw [halfway, List.drop_eq_getElem_cons hlt, List.map_cons]
  · rw [halfway, List.take_add_one, hx, List.append_assoc]
    rfl

theorem set_length {α : Type} {xs : List α} {n : ℕ} (hn : xs.length = n) (y : α) (ys : List α)
    (z : α) : (xs ++ y::ys).set n z = xs ++ z::ys := by
  subst hn
  simp

/-- The programs of one object's verbs, and how many they are. -/
def programsOf (r : Routines P) (t : Table P) (oid : Objid) : List Byte × ℕ :=
  match t.find oid with
  | some o => (writeVerbs r oid 0 o.verbdefs, o.verbdefs.countP (·.program.isSome))
  | none => ([], 0)

theorem writePrograms_eq (r : Routines P) (db : Image P) :
    writePrograms r db = db.objects.objids.flatMap fun oid => (programsOf r db.objects oid).1 := by
  rw [writePrograms]
  congr
  funext oid
  rw [programsOf]
  cases db.objects.find oid <;> rfl

theorem nprogs_eq (r : Routines P) (t : Table P) :
    nprogs t = (t.objids.map fun oid => (programsOf r t oid).2).sum := by
  rw [nprogs]
  congr
  funext oid
  rw [programsOf]
  cases t.find oid <;> rfl

section Programs
variable {r : Routines P} {db : Image P} (hl : Legal db) (hr : RoundTrips r db)
include hl hr

theorem readProgramsOf_reads {n : ℕ} {x : Option (Object P)} (hx : db.objects[n]? = some x) (i : ℕ) :
    Reads (readLoop (readVerbProgram r currentVersion)
        (programsOf r db.objects (BitVec.ofNat 64 n)).2 i (halfway db.objects n))
      (programsOf r db.objects (BitVec.ofNat 64 n)).1 (.ok (halfway db.objects (n+1))) := by
  have hlt := (List.getElem?_eq_some_iff.mp hx).1
  have hfind := Table.find_ofNat hl.hierarchies.small hlt hx
  obtain ⟨hbefore, hafter⟩ := halfway_succ hx
  rw [programsOf, hfind, hbefore, hafter]
  cases x with
  | none => exact readLoop_nil i _
  | some o =>
    have hlen : (db.objects.take n).length = n := by simp; omega
    have hsmall : (db.objects.take n ++
        some o.bare::(db.objects.drop (n+1)).map (Option.map Object.bare)).length < 2^31 := by
      have := hl.hierarchies.small
      simp
      omega
    have hverbs := readVerbs_reads (r := r) (n := n) hsmall (by simp; omega) o [] o.verbdefs
      (hl.objects _ o hfind).verbs (hr.programs _ o hfind) i
    rw [set_length hlen, set_length hlen] at hverbs
    exact hverbs

theorem readPrograms_reads (k n i : ℕ) (hk : n+k = db.objects.length) :
    Reads (readLoop (readVerbProgram r currentVersion)
        (((List.range' n k).map (BitVec.ofNat 64)).map fun oid =>
          (programsOf r db.objects oid).2).sum i (halfway db.objects n))
      (((List.range' n k).map (BitVec.ofNat 64)).flatMap fun oid => (programsOf r db.objects oid).1)
      (.ok db.objects) := by
  induction k generalizing n i with
  | zero =>
    have hfull : halfway db.objects n = db.objects := by
      rw [halfway, List.take_of_length_le (by omega), List.drop_of_length_le (by omega)]
      simp
    rw [hfull]
    exact readLoop_nil i _
  | succ k ih =>
    obtain ⟨x, hx⟩ : ∃ x, db.objects[n]? = some x := ⟨_, List.getElem?_eq_getElem (by omega)⟩
    rw [List.range'_succ, List.map_cons, List.map_cons, List.sum_cons, List.flatMap_cons]
    exact readLoop_append (readProgramsOf_reads hl hr hx i) (ih (n+1) _ (by omega))

end Programs

theorem countsFormat_eq : countsFormat =
    [.num .d, .byte 10, .num .d, .byte 10, .num .d, .byte 10, .num .d, .byte 10] := rfl

theorem counts_aligned {a b c : ℕ} (ha : a < 2^31) (hb : b < 2^31) (hc : c < 2^31)
    {bs : List Byte} (hs : Solid bs) : Aligned countsFormat [(a:ℤ), (b:ℤ), 0, (c:ℤ)] bs := by
  have hprint : ∀ z ds zs, Solid (printf (.num .d::ds) (z::zs) ++ bs) := by
    intro z ds zs
    rw [printf, List.append_assoc]
    exact solid_print _ _
  rw [countsFormat_eq]
  exact ⟨store_nat ha, stops_cons (by decide), fun _ => hprint _ _ _, store_nat hb,
    stops_cons (by decide), fun _ => hprint _ _ _, by decide, stops_cons (by decide),
    fun _ => hprint _ _ _, store_nat hc, stops_cons (by decide), fun _ => hs, rfl⟩

theorem header_aligned {bs : List Byte} (hs : Solid bs) :
    Aligned headerFormat [versionNum currentVersion] bs := by
  have h4 : print 4 = [52] := by decide
  have hstore : Conversion.u.store 4 = some 4 := by decide
  have hcons : ∀ (b : Byte) cs, Solid (b::cs) ↔ isspace b = false := by simp [Solid]
  simp [headerFormat, format, directives, versionNum, currentVersion, Aligned, Directive.Ends,
    printf, charByte, Stops, isDigit, isspace, h4, hstore, hcons, hs]

theorem writeVerbs_solid (r : Routines P) (oid : Objid) (k : ℕ) (vs : List (Verbdef P))
    {rest : List Byte} (h : Solid rest) : Solid (writeVerbs r oid k vs ++ rest) := by
  induction vs generalizing k with
  | nil => exact h
  | cons v vs ih =>
    rw [writeVerbs]
    cases v.program with
    | none => exact ih (k+1)
    | some p => exact solid_cons (by decide)

theorem writePrograms_solid (r : Routines P) (db : Image P) {rest : List Byte} (h : Solid rest) :
    Solid (writePrograms r db ++ rest) := by
  rw [writePrograms]
  induction db.objects.objids with
  | nil => exact h
  | cons oid ids ih =>
    rw [List.flatMap_cons, List.append_assoc]
    split
    · exact writeVerbs_solid r oid 0 _ ih
    · exact ih

theorem users_solid (users : List Objid) {rest : List Byte} (h : Solid rest) :
    Solid (users.flatMap dbioWriteNum ++ rest) := by
  cases users with
  | nil => exact h
  | cons u users =>
    rw [List.flatMap_cons, dbioWriteNum, List.append_assoc, List.append_assoc]
    exact solid_print _ _

theorem readUsers_reads {users : List Objid} (h : users.length < 2^31) :
    Reads (readUsers users.length) (users.flatMap dbioWriteNum) users := by
  have hmany := readMany_flatMap (v := id) users fun u _ => dbioReadNum_reads u
  have hneg : ¬((users.length:ℤ) < 0 ∨ 2^31 ≤ (users.length:ℤ)) := by omega
  intro f rest hf
  rw [readUsers, if_neg hneg]
  simpa using hmany f rest hf

theorem readTail_loads {r : Routines P} {db : Image P} (hr : RoundTrips r db) (l : Loaded P) :
    Loads (readTail r l) (db.tasks ++ db.connections) (.ok l) := by
  intro f hf
  obtain ⟨g, h, hg, hh⟩ := hr.rest f hf
  refine ⟨h, ?_⟩
  rw [readTail, hg]
  simp only [bind, Except.bind, Bool.not_true, Bool.false_eq_true, if_false, hh]

theorem bare_hierarchical {t : Table P} (h : Hierarchical t) :
    Hierarchical (t.map (Option.map Object.bare)) := by
  have hlink : ∀ (o : Object P) l, o.bare.link l = o.link l := by
    intro o l
    cases l <;> rfl
  have hheap : ∀ s, Table.heap (t.map (Option.map Object.bare)) s = t.heap s := by
    intro s
    funext i
    simp only [Table.heap, Table.find_map, Option.map_map, Function.comp_def, hlink]
  constructor
  · rw [List.length_map]
    exact h.small
  · rw [hheap]
    exact h.kin
  · rw [hheap]
    exact h.place
  · intro i o ho
    rw [Table.find_map] at ho
    obtain ⟨o', ho', rfl⟩ := Option.map_eq_some_iff.mp ho
    exact h.unmarked i o' ho'

theorem body_solid {r : Routines P} {db : Image P} (hr : RoundTrips r db)
    {texts : List (List Byte)} (h : ∀ rest, Solid rest → Solid (texts.flatten ++ rest)) :
    Solid (db.users.flatMap dbioWriteNum ++ (texts.flatten ++
      (writePrograms r db ++ (db.tasks ++ db.connections)))) :=
  users_solid _ (h _ (writePrograms_solid r db (hr.tasks.2.append hr.tasks.1 _)))

section Whole
variable {r : Routines P} {db : Image P} (hl : Legal db) (hr : RoundTrips r db)
include hl hr

/-- The file after its first line. -/
theorem readBody_loads : ∃ objects,
    db.objects.objids.mapM (writeObject r db) = .ok objects ∧
    Loads (readBody r currentVersion)
      (printf countsFormat [(db.objects.length:ℤ), nprogs db.objects, 0, db.users.length] ++
        (db.users.flatMap dbioWriteNum ++ (objects.flatten ++
        (writePrograms r db ++ (db.tasks ++ db.connections)))))
      (.ok ⟨db.objects, db.users, []⟩) := by
  obtain ⟨texts, htexts, hsolid, hobjects⟩ := readObjects_reads hl hr db.objects.length 0 (by omega)
  have hids : db.objects.objids = (List.range' 0 db.objects.length).map (BitVec.ofNat 64) := by
    rw [Table.objids, List.range_eq_range']
  refine ⟨texts, by rw [hids, htexts], ?_⟩
  obtain ⟨v, hv, hvt, hvlog⟩ := validateHierarchies_eq (bare_hierarchical hl.hierarchies)
  have hprograms := readPrograms_reads hl hr db.objects.length 0 1 (by omega)
  rw [← hids, ← nprogs_eq, ← writePrograms_eq] at hprograms
  apply scanf_loads
  · exact counts_aligned hl.hierarchies.small hl.programs hl.users (body_solid hr hsolid)
  · apply Reads.loads (readUsers_reads hl.users)
    simp only [Int.toNat_natCast]
    apply Reads.loads (hobjects 0)
    simp only [hv, bind, Except.bind, Bool.not_true, Bool.false_eq_true, if_false, hvt, hvlog]
    apply Reads.loads hprograms
    exact readTail_loads hr _

end Whole

/-- A legal database is written in full, and reading what was written succeeds, with nothing to
repair: every object is back under its number with all its fields, its verbs, their programs, its
properties and their values, and so are the places of recycled objects and the list of players. -/
theorem written_database_read_back (r : Routines P) (db : Image P) (hl : Legal db)
    (hr : RoundTrips r db) : ∃ bs, writeDbFile r db = .ok bs ∧
      ∀ f : Input, f.rest = bs →
        ∃ g, readDbFile r f = .ok (.ok ⟨db.objects, db.users, []⟩, g) := by
  obtain ⟨objects, hobjects, hbody⟩ := readBody_loads hl hr
  refine ⟨_, bind_ok.mpr ⟨objects, hobjects, rfl⟩, ?_⟩
  intro f hf
  simp only [List.append_assoc] at hf
  have hscan := scanf_printf headerFormat [versionNum currentVersion] _ (header_aligned ?_) f hf
  · obtain ⟨g, hg⟩ := hbody {f.past (printf headerFormat [versionNum currentVersion]) _ f.buffer with
      version := currentVersion} rfl
    exact ⟨g, bind_ok.mpr ⟨_, hscan, hg⟩⟩
  · rw [countsFormat_eq, printf, List.append_assoc]
    exact solid_print _ _

/-- A parent with a property and two verbs, of which the second has an empty program. -/
def host : Object Unit where
  name := strIntern [82, 111, 111, 116]
  flags := 0x17
  owner := 0
  location := nothing
  contents := 2
  next := nothing
  parent := nothing
  child := 2
  sibling := nothing
  verbdefs := [⟨strIntern [108, 111, 111, 107, 32, 108], 0, 5, -1, none⟩,
    ⟨strIntern [103, 101, 116], 0, 13, -2, some ()⟩]
  propdefs := [dbprivNewPropdef (strIntern [107])]
  propval := [⟨.str [104, 105], 0, 5⟩]

/-- A child of 0 in it, and with the next number its sibling. -/
def guest (next : Objid) (value : Var) : Object Unit where
  name := strIntern [103]
  flags := 0
  owner := 0
  location := 0
  contents := nothing
  next := next
  parent := 0
  child := nothing
  sibling := next
  verbdefs := []
  propdefs := []
  propval := [⟨value, 0, 5⟩]

/-- The parent, a recycled object, two children, and no tasks or connections. -/
def hostImage : Image Unit where
  objects := [some host, none, some (guest 3 (.list [.int 7, .obj 2])), some (guest nothing .clear)]
  users := [0]
  upper _ _ _ := 0
  tasks := printf (format "0 clocks\n0 queued tasks\n0 suspended tasks\n") []
  connections := printf (format "0 active connections with listeners\n") []

/-- Reads programs without statements, and the other parts when they have no entries. -/
def emptyRoutines : Routines Unit where
  others := noOthers
  readProgram _ f := do
    let (s, f) ← fgets 20 f
    .ok (if s = [46, 10] then some () else none, f)
  unparse _ := []
  readTaskQueue f := do
    let (ns, f) ← scanf (format "%d clocks\n%d queued tasks\n%d suspended tasks\n") f
    .ok (ns = [0, 0, 0], f)
  readActiveConnections f := do
    let (ns, f) ← scanf (format "%d active connections with listeners\n") f
    .ok (ns = [0], f)

theorem hostImage_find {i : Objid} {o : Object Unit} (h : hostImage.objects.find i = some o) :
    (i = 0 ∧ o = host) ∨ (i = 2 ∧ o = guest 3 (.list [.int 7, .obj 2])) ∨
      (i = 3 ∧ o = guest nothing .clear) := by
  obtain ⟨-, h⟩ := Table.find_eq.mp h
  have hi : ∀ n, hostImage.objects[n]? = some (some o) → (n = 0 ∧ o = host) ∨
      (n = 2 ∧ o = guest 3 (.list [.int 7, .obj 2])) ∨ (n = 3 ∧ o = guest nothing .clear) := by
    intro n hn
    rcases n with _|_|_|_|n
    · exact .inl ⟨rfl, (Option.some.inj (Option.some.inj hn)).symm⟩
    · cases Option.some.inj hn
    · exact .inr (.inl ⟨rfl, (Option.some.inj (Option.some.inj hn)).symm⟩)
    · exact .inr (.inr ⟨rfl, (Option.some.inj (Option.some.inj hn)).symm⟩)
    · simp [hostImage] at hn
  rcases hi _ h with ⟨hn, ho⟩|⟨hn, ho⟩|⟨hn, ho⟩
  · exact .inl ⟨BitVec.eq_of_toNat_eq hn, ho⟩
  · exact .inr (.inl ⟨BitVec.eq_of_toNat_eq hn, ho⟩)
  · exact .inr (.inr ⟨BitVec.eq_of_toNat_eq hn, ho⟩)

/-- The links of both hierarchies. -/
def hostLinks : Forest.Heap Objid := fun i =>
  if i = 0 then some ⟨nothing, 2, nothing⟩
  else if i = 2 then some ⟨0, nothing, 3⟩
  else if i = 3 then some ⟨0, nothing, nothing⟩
  else none

theorem hostLinks_forest : Forest.IsForest nothing hostLinks := by
  refine .ofNodes [0, 2, 3] (fun i hi => ?_) (fun i => if i = 0 then [2, 3] else [])
    (fun i => if i = 0 then 0 else 1) rfl ?_ ?_
  · unfold hostLinks at hi
    split_ifs at hi with h0 h2 h3
    · simp [h0]
    · simp [h2]
    · simp [h3]
    · cases hi
  · intro i hi l hl
    obtain rfl|rfl|rfl : i = 0 ∨ i = 2 ∨ i = 3 := by simpa using hi
    all_goals obtain rfl := Option.some.inj hl
    · exact ⟨.cons rfl (by decide) (.cons rfl (by decide) .nil), by decide, by simp [hostLinks],
        by simp [hostLinks, Forest.upOf, nothing]⟩
    · exact ⟨.nil, by decide, by simp, by simp [hostLinks, Forest.upOf, nothing]⟩
    · exact ⟨.nil, by decide, by simp, by simp [hostLinks, Forest.upOf, nothing]⟩
  · intro i hi l hl
    obtain rfl|rfl|rfl : i = 0 ∨ i = 2 ∨ i = 3 := by simpa using hi
    all_goals
      obtain rfl := Option.some.inj hl
      decide

theorem hostImage_heap {s : Side} (hs : s = kinship ∨ s = placement) :
    hostImage.objects.heap s = hostLinks := by
  funext i
  rw [Table.heap]
  cases ho : hostImage.objects.find i with
  | some o =>
    rcases hs with rfl|rfl <;> rcases hostImage_find ho with ⟨rfl, rfl⟩|⟨rfl, rfl⟩|⟨rfl, rfl⟩ <;> rfl
  | none =>
    have hne : ∀ j, (hostImage.objects.find j).isSome = true → i ≠ j := by
      rintro j hj rfl
      rw [ho] at hj
      cases hj
    rw [hostLinks, if_neg (hne 0 rfl), if_neg (hne 2 rfl), if_neg (hne 3 rfl)]
    rfl

theorem hostImage_legal : Legal hostImage where
  hierarchies := {
    small := by decide
    kin := hostImage_heap (.inl rfl) ▸ hostLinks_forest
    place := hostImage_heap (.inr rfl) ▸ hostLinks_forest
    unmarked := by
      intro i o ho
      rcases hostImage_find ho with ⟨-, rfl⟩|⟨-, rfl⟩|⟨-, rfl⟩ <;> decide }
  layout i o ho := by
    rcases hostImage_find ho with ⟨rfl, rfl⟩|⟨rfl, rfl⟩|⟨rfl, rfl⟩ <;> rfl
  objects i o ho := by
    rcases hostImage_find ho with ⟨-, rfl⟩|⟨-, rfl⟩|⟨-, rfl⟩
    · exact ⟨by decide, by decide, by decide, by decide, by simp [host, strIntern, cstr],
        by simp [host, strIntern, cstr, dbprivNewPropdef]⟩
    · exact ⟨by decide, by decide, by decide, by decide, by simp [guest], by simp [guest]⟩
    · exact ⟨by decide, by decide, by decide, by decide, by simp [guest], by simp [guest]⟩
  programs := by decide
  users := by decide

theorem hostImage_values {i : Objid} {o : Object Unit} (ho : hostImage.objects.find i = some o)
    {p : Pval} (hp : p ∈ o.propval) :
    p.var = .str [104, 105] ∨ p.var = .list [.int 7, .obj 2] ∨ p.var = .clear := by
  rcases hostImage_find ho with ⟨-, rfl⟩|⟨-, rfl⟩|⟨-, rfl⟩
  · exact .inl (congrArg _ (List.mem_singleton.mp hp))
  · exact .inr (.inl (congrArg _ (List.mem_singleton.mp hp)))
  · exact .inr (.inr (congrArg _ (List.mem_singleton.mp hp)))

theorem hostImage_roundTrips : RoundTrips emptyRoutines hostImage where
  values i o ho k p hp := by
    apply dbioReadVar_reads
    rcases hostImage_values ho (List.mem_of_getElem? hp) with hv|hv|hv
    · rw [hv]
      exact ⟨by decide, by decide⟩
    · rw [hv]
      exact ⟨by decide, trivial, trivial, trivial⟩
    · rw [hv]
      trivial
  programs i o ho v hv p hp := by
    have hread : Reads (emptyRoutines.readProgram currentVersion)
        (dbioWriteProgram emptyRoutines p) (some p) := by
      apply Reads.last (fgets_reads (s := [46]) (by decide) (by decide) (by decide))
      intro f
      rfl
    exact ⟨hread, solid_cons (by decide)⟩
  tasks := ⟨by decide, solid_cons (by decide)⟩
  rest f hf := by
    have h0 : print 0 = [48] := by decide
    have hstore : Conversion.d.store 0 = some 0 := by decide
    have hcons : ∀ (b : Byte) cs, Solid (b::cs) ↔ isspace b = false := by simp [Solid]
    have ha : Aligned (format "%d clocks\n%d queued tasks\n%d suspended tasks\n") [0, 0, 0]
        hostImage.connections := by
      simp [hostImage, format, directives, Aligned, Directive.Ends, printf, charByte, Stops, isDigit,
        isspace, h0, hstore, hcons]
    have hb : Aligned (format "%d active connections with listeners\n") [0] [] := by
      simp [format, directives, Aligned, Directive.Ends, printf, charByte, Stops, isDigit,
        isspace, hstore, Solid]
    have hg := scanf_printf _ _ _ ha f hf
    have hh := scanf_printf _ _ _ hb (f.past hostImage.tasks hostImage.connections f.buffer)
      (List.append_nil _).symm
    exact ⟨_, _, bind_ok.mpr ⟨_, hg, rfl⟩, bind_ok.mpr ⟨_, hh, rfl⟩⟩

theorem written_database_read_back_host : ∃ bs, writeDbFile emptyRoutines hostImage = .ok bs ∧
    ∀ f : Input, f.rest = bs → ∃ g, readDbFile emptyRoutines f = .ok (.ok ⟨[some host, none,
      some (guest 3 (.list [.int 7, .obj 2])), some (guest nothing .clear)], [0], []⟩, g) :=
  written_database_read_back emptyRoutines hostImage hostImage_legal hostImage_roundTrips

end LambdaMoo.DbFile
