import LambdaMoo.Failures

/-!
# Failures that come late

`create` and the first stages of `move` make their change and then call a verb.
When the stack of activations has no room for it they fail, and the change
stays. Together with the functions that check first, this says of every stage
when its failure leaves the database as it was.
-/

set_option autoImplicit false

namespace LambdaMoo.Database

open Forest

namespace Db

/-- `create` passes its checks of the parent, of the owner and of the owner's quota. -/
def Creates (db : Db) (parent owner progr : ℤ) : Prop :=
  ((match db.find parent with
      | some p => !db.objectAllows p progr p.flags.fertile
      | none => decide (parent ≠ nothing)) || (decide (owner ≠ progr) && !db.isWizard progr)) =
    false ∧ ∃ q, db.quota owner = .ok q ∧ ∀ s, q = some s → 0 < s.2.toInt

/-- A move to a place that accepts the object passes its checks. -/
def Moves (db : Db) (what where_ : ℤ) (accepts : Bool) (progr : ℤ) : Prop :=
  (db.isWizard progr = true ∨ accepts = true) ∧ (where_ = nothing ∨ db.valid where_ = true) ∧
    (∃ o, db.find what = some o ∧ o.place.up ≠ where_) ∧
    reaches nothing db.place what (db.fuel+1) where_ = some false

theorem foldlM_numObjects {α : Type} {f : Db → α → Result Db}
    (hf : ∀ db a db', f db a = .ok db' → db'.numObjects = db.numObjects) (l : List α) {db db' : Db}
    (h : l.foldlM f db = .ok db') : db'.numObjects = db.numObjects := by
  induction l generalizing db with
  | nil => rw [← pure_ok.mp h]
  | cons a l ih =>
    rw [List.foldlM_cons] at h
    obtain ⟨db1, h1, h⟩ := bind_ok.mp h
    exact (ih h).trans (hf db a db1 h1)

theorem fixProps_numObjects {old new common : ℕ} {db db' : Db} {oid : ℤ} {loc : ℕ}
    (h : fixProps old new common db oid loc = .ok db') : db'.numObjects = db.numObjects := by
  have hset : ∀ {me : Object} {f : Object → Object},
      (if loc+old+common ≤ me.propval.length then (pure (db.modify oid f) : Result Db)
        else .error (.undefined "propval out of bounds")) = .ok db' →
      db'.numObjects = db.numObjects := by
    intro me f h
    split at h
    · rw [← pure_ok.mp h]
      rfl
    · cases h
  unfold fixProps at h
  obtain ⟨me, -, h⟩ := bind_ok.mp h
  dsimp only at h
  split at h
  · exact hset h
  · obtain ⟨p, -, h⟩ := bind_ok.mp h
    split at h
    · exact hset h
    · cases h

theorem changeParent_numObjects {db : Db} {oid parent : ℤ} {r : Bool × Db}
    (h : db.changeParent oid parent = .ok r) : r.2.numObjects = db.numObjects := by
  unfold changeParent at h
  obtain ⟨b, -, h⟩ := bind_ok.mp h
  split at h
  · rw [← pure_ok.mp h]
  · obtain ⟨o, -, h⟩ := bind_ok.mp h
    obtain ⟨kin, -, h⟩ := bind_ok.mp h
    obtain ⟨db2, h2, h⟩ := bind_ok.mp h
    rw [← pure_ok.mp h]
    unfold fixPropertiesAfterChparent at h2
    obtain ⟨o', -, h2⟩ := bind_ok.mp h2
    obtain ⟨common, -, h2⟩ := bind_ok.mp h2
    obtain ⟨olds, -, h2⟩ := bind_ok.mp h2
    obtain ⟨news, -, h2⟩ := bind_ok.mp h2
    obtain ⟨ds, -, h2⟩ := bind_ok.mp h2
    exact (foldlM_numObjects (fun _ _ _ => fixProps_numObjects) ds h2).trans rfl

theorem decrQuota_cases {db : Db} {player : ℤ} {r : Bool × Db} (h : db.decrQuota player = .ok r) :
    (∃ q, db.quota player = .ok q ∧ ∀ s, q = some s → 0 < s.2.toInt) ∧ r.1 = true ∧
        r.2.numObjects = db.numObjects ∨
      (∃ s, db.quota player = .ok (some s) ∧ s.2.toInt ≤ 0) ∧ r = (false, db) := by
  unfold decrQuota at h
  obtain ⟨q, hq, h⟩ := bind_ok.mp h
  cases q with
  | none =>
    rw [← pure_ok.mp h]
    exact .inl ⟨⟨none, hq, by simp⟩, rfl, rfl⟩
  | some s =>
    obtain ⟨n, num⟩ := s
    dsimp only at h
    by_cases hn : num.toInt ≤ 0
    · rw [if_pos hn] at h
      exact .inr ⟨⟨(n, num), hq, hn⟩, (pure_ok.mp h).symm⟩
    · rw [if_neg hn] at h
      obtain ⟨db1, h1, h⟩ := bind_ok.mp h
      rw [← pure_ok.mp h]
      refine .inl ⟨⟨some (n, num), hq, ?_⟩, rfl, ?_⟩
      · intro s hs
        cases hs
        exact not_le.mp hn
      · unfold setSlot at h1
        obtain ⟨o, -, h1⟩ := bind_ok.mp h1
        split at h1
        · rw [← pure_ok.mp h1]
          rfl
        · cases h1

/-- A `create` that fails has failed a check and changed nothing, or has made an object. -/
theorem create_fails {callVerb : CallVerb} {db db' : Db} {parent owner progr : ℤ} {e : Err}
    (h : create callVerb db parent owner progr = .ok (.fails e, db')) :
    ¬ db.Creates parent owner progr ∧ db' = db ∨
      db.Creates parent owner progr ∧ callVerb db.numObjects "initialize" = .maxrec ∧
        db'.numObjects = db.numObjects+1 := by
  unfold create at h
  generalize hc : ((match db.find parent with
    | some p => !db.objectAllows p progr p.flags.fertile
    | none => decide (parent ≠ nothing)) || (decide (owner ≠ progr) && !db.isWizard progr)) = c at h
  cases c with
  | true =>
    cases h
    refine .inl ⟨fun hcr => ?_, rfl⟩
    have := hcr.1
    rw [hc] at this
    cases this
  | false =>
    rw [if_neg (by simp)] at h
    obtain ⟨⟨allowed, db1⟩, h1, h⟩ := bind_ok.mp h
    dsimp only at h
    rcases decrQuota_cases h1 with ⟨hq, ha, hn⟩ | ⟨⟨s, hs, hle⟩, hr⟩
    · right
      cases ha
      rw [if_neg (by simp)] at h
      obtain ⟨⟨b, db2⟩, h2, h⟩ := bind_ok.mp h
      dsimp only at h hn
      have hn2 : db2.numObjects = db1.numObjects+1 := changeParent_numObjects h2
      rw [hn] at h hn2
      split at h
      · cases h
      · rename_i hm
        cases h
        exact ⟨⟨hc, hq⟩, hm, hn2⟩
      · cases h
    · left
      cases hr
      rw [if_pos (by simp)] at h
      cases h
      refine ⟨?_, rfl⟩
      rintro ⟨-, q, hq, hpos⟩
      rw [hs] at hq
      cases hq
      exact absurd (hpos s rfl) (not_lt.mpr hle)

theorem unlinkAfter_isSome {h h' : Heap ℤ} {what : ℤ} (fuel : ℕ) {lid : ℤ}
    (hr : unlinkAfter nothing h what fuel lid = some h') (j : ℤ) :
    (h' j).isSome = (h j).isSome := by
  induction fuel generalizing lid with
  | zero => cases hr
  | succ fuel ih =>
    unfold unlinkAfter at hr
    split at hr
    · cases hr
      rfl
    · obtain ⟨l, -, hr⟩ := Option.bind_eq_some_iff.mp hr
      split at hr
      · obtain ⟨w, -, hr⟩ := Option.bind_eq_some_iff.mp hr
        cases hr
        exact Forest.modify_isSome _ _ _
      · exact ih hr

theorem remove_isSome {h h' : Heap ℤ} {fuel : ℕ} {owner what : ℤ}
    (hr : remove nothing fuel h owner what = some h') (j : ℤ) :
    (h' j).isSome = (h j).isSome := by
  unfold remove at hr
  obtain ⟨l, -, hr⟩ := Option.bind_eq_some_iff.mp hr
  dsimp only at hr
  split at hr
  · obtain ⟨w, -, hr⟩ := Option.bind_eq_some_iff.mp hr
    cases hr
    rw [setNext, Forest.modify_isSome, setFirst, Forest.modify_isSome]
  · obtain ⟨h1, h1r, hr⟩ := Option.bind_eq_some_iff.mp hr
    cases hr
    rw [setNext, Forest.modify_isSome, unlinkAfter_isSome fuel h1r]

theorem append_isSome {h h' : Heap ℤ} {fuel : ℕ} {owner what : ℤ}
    (hr : append nothing fuel h owner what = some h') (j : ℤ) :
    (h' j).isSome = (h j).isSome := by
  unfold append at hr
  obtain ⟨l, -, hr⟩ := Option.bind_eq_some_iff.mp hr
  dsimp only at hr
  split at hr
  · cases hr
    rw [setNext, Forest.modify_isSome, setFirst, Forest.modify_isSome]
  · obtain ⟨h1, h1r, hr⟩ := Option.bind_eq_some_iff.mp hr
    obtain ⟨lid, -, rfl⟩ := Option.map_eq_some_iff.mp h1r
    cases hr
    rw [setNext, Forest.modify_isSome, setNext, Forest.modify_isSome]

/-- A change of location leaves the object in the new one. -/
theorem changeLocation_up {db db' : Db} {oid location : ℤ}
    (h : db.changeLocation oid location = .ok db') :
    ∃ o, db'.objects oid = some o ∧ o.place.up = location := by
  unfold changeLocation at h
  obtain ⟨o, ho, h⟩ := bind_ok.mp h
  have ho' : db.objects oid = some o := by
    rw [← find_eq]
    exact deref_ok ho
  have hplace : (db.place oid).isSome = true := by simp [Db.place, ho']
  have hfinal : ∀ p : Heap ℤ, (p oid).isSome = true →
      ∃ o, (db.setPlace (setUp p oid location)).objects oid = some o ∧ o.place.up = location := by
    intro p hp
    obtain ⟨l, hl⟩ := Option.isSome_iff_exists.mp hp
    refine ⟨_, by simp only [setPlace, mapObjects, ho']; rfl, ?_⟩
    simp [setUp, Forest.modify, hl]
  have hattach : ∀ p : Heap ℤ, (p oid).isSome = true →
      (if db.valid location = true then do
        let place ← deref (append nothing db.fuel p location oid)
        pure (db.setPlace (setUp place oid location))
      else pure (db.setPlace (setUp p oid location)) : Result Db) = .ok db' →
      ∃ o, db'.objects oid = some o ∧ o.place.up = location := by
    intro p hp h
    split at h
    · obtain ⟨q, hq, h⟩ := bind_ok.mp h
      rw [← pure_ok.mp h]
      exact hfinal q ((append_isSome (deref_ok hq) oid).trans hp)
    · rw [← pure_ok.mp h]
      exact hfinal p hp
  dsimp only at h
  split at h
  · obtain ⟨p, hp, h⟩ := bind_ok.mp h
    exact hattach p ((remove_isSome (deref_ok hp) oid).trans hplace) h
  · exact hattach db.place hplace h

theorem exitMove_db {callVerb : CallVerb} {db : Db} {what where_ : ℤ} {e : Err}
    (h : exitMove callVerb db what where_ = .ok (.fails e)) :
    callVerb where_ "enterfunc" = .maxrec := by
  unfold exitMove at h
  split at h
  · obtain ⟨o, -, h⟩ := bind_ok.mp h
    split at h
    · split at h
      · cases h
      · assumption
      · cases h
    · cases h
  · cases h

/-- A move that fails after its object is accepted has failed a check and changed nothing, or has
moved the object. -/
theorem acceptsDecided_fails {callVerb : CallVerb} {db db' : Db} {what where_ progr : ℤ}
    {accepts : Bool} {e : Err}
    (h : acceptsDecided callVerb db what where_ accepts progr = .ok (.fails e, db')) :
    ¬ db.Moves what where_ accepts progr ∧ db' = db ∨
      db.Moves what where_ accepts progr ∧ db'.objects ≠ db.objects ∧
        ((∃ o, db.find what = some o ∧ callVerb o.place.up "exitfunc" = .maxrec) ∨
          callVerb where_ "enterfunc" = .maxrec) := by
  unfold acceptsDecided at h
  by_cases hacc : (!db.isWizard progr && !accepts) = true
  · rw [if_pos hacc] at h
    cases h
    refine .inl ⟨fun hm => ?_, rfl⟩
    have := hm.1
    simp only [Bool.and_eq_true, Bool.not_eq_true'] at hacc
    simp [hacc] at this
  rw [if_neg hacc] at h
  by_cases hval : (!db.valid what || (decide (where_ ≠ nothing) && !db.valid where_)) = true
  · rw [if_pos hval] at h
    cases h
  rw [if_neg hval] at h
  obtain ⟨o, ho, h⟩ := bind_ok.mp h
  dsimp only at h
  by_cases hloc : o.place.up = where_
  · rw [if_pos hloc] at h
    cases h
  rw [if_neg hloc] at h
  obtain ⟨b, hb, h⟩ := bind_ok.mp h
  have hfind := deref_ok ho
  cases b with
  | true =>
    cases h
    refine .inl ⟨fun hm => ?_, rfl⟩
    have := hm.2.2.2
    rw [deref_ok hb] at this
    cases this
  | false =>
    rw [if_neg (by simp)] at h
    obtain ⟨db1, h1, h⟩ := bind_ok.mp h
    have hmoves : db.Moves what where_ accepts progr := by
      refine ⟨?_, ?_, ⟨o, hfind, hloc⟩, deref_ok hb⟩
      · by_contra hno
        simp_all
      · by_contra hno
        simp_all
    have hdiff : db1.objects ≠ db.objects := by
      intro heq
      obtain ⟨o1, ho1, hup⟩ := changeLocation_up h1
      rw [heq, ← find_eq, hfind] at ho1
      cases ho1
      exact hloc hup
    right
    split at h
    · cases h
    · rename_i hm
      cases h
      exact ⟨hmoves, hdiff, .inl ⟨o, hfind, hm⟩⟩
    · obtain ⟨st, hst, h⟩ := bind_ok.mp h
      cases h
      exact ⟨hmoves, hdiff, .inr (exitMove_db hst)⟩


/-- What a stage learns from the rest of the server. -/
structure Server where
  callVerb : CallVerb
  dbMatchPrep : Str → ℤ
  numericNames : Bool
  ptr : ℕ

inductive Builtin where
  | create (parent owner : ℤ)
  | chparent (what parent : ℤ)
  | move (next : ℕ) (what where_ : ℤ) (accepts : Bool)
  | addVerb (oid : ℤ) (info args : Var)
  | deleteVerb (oid : ℤ) (desc : Var)
  | setVerbInfo (oid : ℤ) (desc info : Var)
  | setVerbArgs (oid : ℤ) (desc args : Var)
  | addProperty (oid : ℤ) (pname : Name) (value info : Var)
  | deleteProperty (oid : ℤ) (pname : CStr)
  | setPropertyInfo (oid : ℤ) (pname : CStr) (info : Var)
  | clearProperty (oid : ℤ) (pname : CStr)

def Builtin.stage (sv : Server) (db : Db) (progr : ℤ) : Builtin → Result (Stage × Db)
  | .create parent owner => db.create sv.callVerb parent owner progr
  | .chparent what parent => db.chparent what parent progr
  | .move next what where_ accepts => db.doMove sv.callVerb next what where_ accepts progr
  | .addVerb oid info args => bfAddVerb sv.dbMatchPrep sv.ptr db oid info args progr
  | .deleteVerb oid desc => bfDeleteVerb sv.numericNames db oid desc progr
  | .setVerbInfo oid desc info => bfSetVerbInfo sv.numericNames db oid desc info progr
  | .setVerbArgs oid desc args =>
    bfSetVerbArgs sv.dbMatchPrep sv.numericNames db oid desc args progr
  | .addProperty oid pname value info => bfAddProp db oid pname value info progr
  | .deleteProperty oid pname => bfDeleteProp db oid pname progr
  | .setPropertyInfo oid pname info => setPropInfo sv.ptr db oid pname info progr
  | .clearProperty oid pname => db.clearProp oid pname progr

/-- The stage of a move that goes on to change the location. -/
def Relocates (callVerb : CallVerb) (db : Db) (next : ℕ) (what where_ : ℤ) (accepts : Bool)
    (progr : ℤ) : Prop :=
  match next with
  | 1 => (∃ o, db.find what = some o ∧ db.controls progr o = true) ∧
      (where_ = nothing ∧ db.Moves what where_ true progr ∨
        where_ ≠ nothing ∧ callVerb where_ "accept" = .verbnf ∧ db.Moves what where_ false progr)
  | 2 => db.Moves what where_ accepts progr
  | _ => False

/-- The stage passes its checks, makes its change, and then the stack of activations has no room
for the verb that is to be told. -/
def Builtin.Late (sv : Server) (db : Db) (progr : ℤ) : Builtin → Prop
  | .create parent owner =>
    db.Creates parent owner progr ∧ sv.callVerb db.numObjects "initialize" = .maxrec
  | .move next what where_ accepts =>
    db.Relocates sv.callVerb next what where_ accepts progr ∧
      ((∃ o, db.find what = some o ∧ sv.callVerb o.place.up "exitfunc" = .maxrec) ∨
        sv.callVerb where_ "enterfunc" = .maxrec)
  | _ => False

/-- The objects, with their two hierarchies, their properties and their verbs. -/
def Unchanged (db db' : Db) : Prop :=
  db'.objects = db.objects ∧ db'.numObjects = db.numObjects

theorem doMove_fails {callVerb : CallVerb} {db db' : Db} {next : ℕ} {what where_ progr : ℤ}
    {accepts : Bool} {e : Err}
    (h : doMove callVerb db next what where_ accepts progr = .ok (.fails e, db')) :
    ¬ db.Relocates callVerb next what where_ accepts progr ∧ db' = db ∨
      db.Relocates callVerb next what where_ accepts progr ∧ db'.objects ≠ db.objects ∧
        ((∃ o, db.find what = some o ∧ callVerb o.place.up "exitfunc" = .maxrec) ∨
          callVerb where_ "enterfunc" = .maxrec) := by
  unfold doMove at h
  split at h
  · cases hf : db.find what with
    | none =>
      rw [hf] at h
      cases h
      refine .inl ⟨?_, rfl⟩
      rintro ⟨⟨o, ho, -⟩, -⟩
      rw [hf] at ho
      cases ho
    | some o =>
      simp only [hf] at h
      by_cases hw : (!db.valid where_ && decide (where_ ≠ nothing)) = true
      · rw [if_pos hw] at h
        cases h
        refine .inl ⟨?_, rfl⟩
        simp only [Bool.and_eq_true, Bool.not_eq_true', decide_eq_true_eq] at hw
        rintro ⟨-, ⟨hn, -⟩ | ⟨-, -, hm⟩⟩
        · exact hw.2 hn
        · rcases hm.2.1 with hn | hv
          · exact hw.2 hn
          · rw [hw.1] at hv
            cases hv
      rw [if_neg hw] at h
      by_cases hc : (!db.controls progr o) = true
      · rw [if_pos hc] at h
        cases h
        refine .inl ⟨?_, rfl⟩
        rintro ⟨⟨o', ho', hc'⟩, -⟩
        rw [hf] at ho'
        cases ho'
        rw [hc'] at hc
        cases hc
      rw [if_neg hc] at h
      have hcontrols : ∃ o, db.find what = some o ∧ db.controls progr o = true :=
        ⟨o, hf, by simpa using hc⟩
      by_cases hn : where_ = nothing
      · rw [if_pos hn] at h
        rcases acceptsDecided_fails h with ⟨hno, hdb⟩ | ⟨hyes, hrest⟩
        · refine .inl ⟨?_, hdb⟩
          rintro ⟨-, ⟨-, hm⟩ | ⟨hne, -⟩⟩
          · exact hno hm
          · exact hne hn
        · exact .inr ⟨⟨hcontrols, .inl ⟨hn, hyes⟩⟩, by rw [← hf]; exact hrest⟩
      · rw [if_neg hn] at h
        split at h
        · cases h
        · rename_i hv
          rcases acceptsDecided_fails h with ⟨hno, hdb⟩ | ⟨hyes, hrest⟩
          · refine .inl ⟨?_, hdb⟩
            rintro ⟨-, ⟨hn', -⟩ | ⟨-, -, hm⟩⟩
            · exact hn hn'
            · exact hno hm
          · exact .inr ⟨⟨hcontrols, .inr ⟨hn, hv, hyes⟩⟩, by rw [← hf]; exact hrest⟩
        · rename_i hv
          cases h
          refine .inl ⟨?_, rfl⟩
          rintro ⟨-, ⟨hn', -⟩ | ⟨-, hv', -⟩⟩
          · exact hn hn'
          · exact hv hv'
  · exact acceptsDecided_fails h
  · obtain ⟨st, -, h⟩ := bind_ok.mp h
    cases h
    exact .inl ⟨id, rfl⟩
  · cases h
  · cases h

/-- A stage that fails leaves the database as it was, unless it is a late one. -/
theorem stage_unchanged_iff {sv : Server} {db db' : Db} {progr : ℤ} {b : Builtin} {e : Err}
    (h : b.stage sv db progr = .ok (.fails e, db')) :
    Unchanged db db' ↔ ¬ b.Late sv db progr := by
  have hsame : db' = db → (Unchanged db db' ↔ ¬ False) := by
    rintro rfl
    exact iff_of_true ⟨rfl, rfl⟩ id
  cases b with
  | create parent owner =>
    rcases create_fails h with ⟨hno, rfl⟩ | ⟨hyes, hm, hn⟩
    · exact iff_of_true ⟨rfl, rfl⟩ fun hl => hno hl.1
    · exact iff_of_false (fun hu => by have := hu.2; omega) fun hl => hl ⟨hyes, hm⟩
  | move next what where_ accepts =>
    rcases doMove_fails h with ⟨hno, rfl⟩ | ⟨hyes, hne, hm⟩
    · exact iff_of_true ⟨rfl, rfl⟩ fun hl => hno hl.1
    · exact iff_of_false (fun hu => hne hu.1) fun hl => hl ⟨hyes, hm⟩
  | chparent what parent => exact hsame (chparent_atomic _ _ _ _ _ _ h)
  | addVerb oid info args => exact hsame (bfAddVerb_atomic _ _ _ _ _ _ _ _ _ h)
  | deleteVerb oid desc => exact hsame (bfDeleteVerb_atomic _ _ _ _ _ _ _ h)
  | setVerbInfo oid desc info => exact hsame (bfSetVerbInfo_atomic _ _ _ _ _ _ _ _ h)
  | setVerbArgs oid desc args => exact hsame (bfSetVerbArgs_atomic _ _ _ _ _ _ _ _ _ h)
  | addProperty oid pname value info => exact hsame (bfAddProp_atomic _ _ _ _ _ _ _ _ h)
  | deleteProperty oid pname => exact hsame (bfDeleteProp_atomic _ _ _ _ _ _ h)
  | setPropertyInfo oid pname info => exact hsame (setPropInfo_atomic _ _ _ _ _ _ _ _ h)
  | clearProperty oid pname => exact hsame (clearProp_atomic _ _ _ _ _ _ h)

/-- A wizard and nothing else. -/
def wizardDb : Db where
  objects i :=
    if i = 0 then some ⟨noName, 0, { noFlags with wizard := true }, orphan, orphan, [], [], [], none⟩
    else none
  numObjects := 1
  allUsers := []
  nextUid := 0
  wpds _ := []
  nextWpd := 0
  vcTable := none
  bounded i h := by
    by_cases hi : i = 0
    · subst hi
      exact ⟨le_rfl, by simp⟩
    · simp [hi] at h

/-- A server with no room for another activation, and an `initialize` verb on every object. -/
def fullServer : Server :=
  ⟨fun _ vname => if vname = "initialize" then .maxrec else .verbnf, fun _ => PREP_NONE, false, 0⟩

theorem stage_unchanged_iff_perm :
    (Builtin.create 0 0).stage fullServer wizardDb 7 = .ok (.fails .perm, wizardDb) ∧
      (Unchanged wizardDb wizardDb ↔ ¬ (Builtin.create 0 0).Late fullServer wizardDb 7) :=
  ⟨rfl, stage_unchanged_iff rfl⟩

/-- `create(#0)` by the wizard when the stack is full: `E_MAXREC`, and there is an object more. -/
theorem create_maxrec :
    ∃ db', (Builtin.create 0 0).stage fullServer wizardDb 0 = .ok (.fails .maxrec, db') ∧
      ¬ Unchanged wizardDb db' := by
  refine ⟨_, rfl, ?_⟩
  intro h
  exact absurd h.2 (by decide)

end Db
end LambdaMoo.Database
