import LambdaMoo.Builtins
import LambdaMoo.PropertyRename

/-!
# Built-in functions that fail

A built-in function that makes all its checks before its change leaves the
database as it was when one of them fails. The changes of the property functions
and of `chparent` make checks of their own, and say so by their result.
-/

set_option autoImplicit false

namespace LambdaMoo.Database

namespace Db

/-- A failure, if that is the result, leaves the database as it is. -/
def Atomic (db : Db) (x : Result (Stage × Db)) : Prop :=
  ∀ e db', x = .ok (.fails e, db') → db' = db

namespace Atomic

variable {db : Db} {α : Type}

theorem fails (e : Err) : db.Atomic (.ok (.fails e, db)) := by
  intro e' db' h
  cases h
  rfl

theorem done (v : Var) (db' : Db) : db.Atomic (.ok (.done v, db')) := by
  intro e' db' h
  cases h

theorem calls (pc : ℕ) (db' : Db) : db.Atomic (.ok (.calls pc, db')) := by
  intro e' db' h
  cases h

theorem error (e : Fault) : db.Atomic (.error e) := by
  intro e' db' h
  cases h

theorem bind {x : Result α} {f : α → Result (Stage × Db)}
    (h : ∀ a, x = .ok a → db.Atomic (f a)) : db.Atomic (x >>= f) := by
  intro e db' hx
  obtain ⟨a, ha, hf⟩ := bind_ok.mp hx
  exact h a ha e db' hf

theorem ite {c : Prop} [Decidable c] {x y : Result (Stage × Db)} (hx : db.Atomic x)
    (hy : db.Atomic y) : db.Atomic (if c then x else y) := by
  split
  · exact hx
  · exact hy

/-- A change that says whether it was made, and leaves the database alone if not. -/
theorem change {x : Result (Bool × Db)} {f : Bool × Db → Result (Stage × Db)} {e : Err}
    (hx : ∀ db', x = .ok (false, db') → db' = db)
    (hf : ∀ db', f (false, db') = .ok (.fails e, db'))
    (ht : ∀ db', db.Atomic (f (true, db'))) : db.Atomic (x >>= f) := by
  apply bind
  rintro ⟨b, db'⟩ h
  cases b with
  | true => exact ht db'
  | false =>
    rw [hf, hx db' h]
    exact fails e

end Atomic

theorem deref_ok {α : Type} {x : Option α} {a : α} (h : deref x = .ok a) : x = some a := by
  cases x with
  | none => cases h
  | some b =>
    cases h
    rfl

theorem addPropdef_false {db db' : Db} {oid owner : ℤ} {pname : Name} {value : Var}
    {flags : PropPerms} (h : db.addPropdef oid pname value owner flags = .ok (false, db')) :
    db' = db := by
  unfold addPropdef at h
  obtain ⟨found, -, h⟩ := bind_ok.mp h
  split at h
  · exact (Prod.mk.inj (pure_ok.mp h)).2.symm
  · obtain ⟨below, -, h⟩ := bind_ok.mp h
    split at h
    · exact (Prod.mk.inj (pure_ok.mp h)).2.symm
    · obtain ⟨o, -, h⟩ := bind_ok.mp h
      obtain ⟨db2, -, h⟩ := bind_ok.mp h
      exact absurd (Prod.mk.inj (pure_ok.mp h)).1 (by simp)

theorem deletePropdef_false {db db' : Db} {oid : ℤ} {pname : CStr}
    (h : db.deletePropdef oid pname = .ok (false, db')) : db' = db := by
  unfold deletePropdef at h
  obtain ⟨o, -, h⟩ := bind_ok.mp h
  split at h
  · exact (Prod.mk.inj (pure_ok.mp h)).2.symm
  · obtain ⟨db2, -, h⟩ := bind_ok.mp h
    exact absurd (Prod.mk.inj (pure_ok.mp h)).1 (by simp)

theorem renamePropdef_false {db db' : Db} {oid : ℤ} {old : CStr} {new : Name}
    (h : db.renamePropdef oid old new = .ok (false, db')) : db' = db := by
  have h' := h
  unfold renamePropdef at h'
  obtain ⟨o, ho, -⟩ := bind_ok.mp h'
  have ho' : db.objects oid = some o := by
    rw [← find_eq]
    exact deref_ok ho
  rcases renamePropdef_cases ho' h with heq | ⟨i, p, db1, -, -, -, -, heq⟩
  · exact (Prod.mk.inj heq).2
  · exact absurd (Prod.mk.inj heq).1 (by simp)

theorem changeParent_false {db db' : Db} {oid parent : ℤ}
    (h : db.changeParent oid parent = .ok (false, db')) : db' = db := by
  unfold changeParent at h
  obtain ⟨b, -, h⟩ := bind_ok.mp h
  split at h
  · exact (Prod.mk.inj (pure_ok.mp h)).2.symm
  · obtain ⟨o, -, h⟩ := bind_ok.mp h
    obtain ⟨kin, -, h⟩ := bind_ok.mp h
    obtain ⟨db2, -, h⟩ := bind_ok.mp h
    exact absurd (Prod.mk.inj (pure_ok.mp h)).1 (by simp)

theorem chparent_atomic (db : Db) (what parent progr : ℤ) :
    db.Atomic (db.chparent what parent progr) := by
  unfold chparent
  split
  · exact .fails _
  · apply Atomic.ite (.fails _)
    apply Atomic.ite (.fails _)
    apply Atomic.bind
    intro b _
    apply Atomic.ite (.fails _)
    exact .change (fun _ => changeParent_false) (fun _ => rfl) fun _ => .done _ _

theorem clearProp_atomic (db : Db) (oid : ℤ) (pname : CStr) (progr : ℤ) :
    db.Atomic (db.clearProp oid pname progr) := by
  unfold clearProp
  split
  · exact .fails _
  · apply Atomic.bind
    intro h _
    split
    · exact .fails _
    · exact .fails _
    · apply Atomic.bind
      intro pval _
      split
      · exact .fails _
      · split
        · exact .fails _
        · exact .bind fun _ _ => .done _ _

theorem bfAddVerb_atomic (dbMatchPrep : Str → ℤ) (ptr : ℕ) (db : Db) (oid : ℤ) (info args : Var)
    (progr : ℤ) : db.Atomic (bfAddVerb dbMatchPrep ptr db oid info args progr) := by
  unfold bfAddVerb
  split
  · exact .fails _
  · split
    · exact .fails _
    · split
      · exact .fails _
      · split
        · exact .fails _
        · exact .done _ _

theorem bfDeleteVerb_atomic (numericNames : Bool) (db : Db) (oid : ℤ) (desc : Var) (progr : ℤ) :
    db.Atomic (bfDeleteVerb numericNames db oid desc progr) := by
  unfold bfDeleteVerb
  split
  · exact .fails _
  · split
    · exact .fails _
    · split
      · exact .fails _
      · split
        · exact .fails _
        · exact .bind fun _ _ => .done _ _

theorem bfSetVerbInfo_atomic (numericNames : Bool) (db : Db) (oid : ℤ) (desc info : Var)
    (progr : ℤ) : db.Atomic (bfSetVerbInfo numericNames db oid desc info progr) := by
  unfold bfSetVerbInfo
  split
  · exact .fails _
  · split
    · exact .fails _
    · split
      · exact .fails _
      · split
        · exact .fails _
        · split
          · exact .fails _
          · exact .done _ _

theorem bfSetVerbArgs_atomic (dbMatchPrep : Str → ℤ) (numericNames : Bool) (db : Db) (oid : ℤ)
    (desc args : Var) (progr : ℤ) :
    db.Atomic (bfSetVerbArgs dbMatchPrep numericNames db oid desc args progr) := by
  unfold bfSetVerbArgs
  split
  · exact .fails _
  · split
    · exact .fails _
    · split
      · exact .fails _
      · split
        · exact .fails _
        · split
          · exact .fails _
          · exact .done _ _

theorem bfAddProp_atomic (db : Db) (oid : ℤ) (pname : Name) (value info : Var) (progr : ℤ) :
    db.Atomic (bfAddProp db oid pname value info progr) := by
  unfold bfAddProp
  split
  · exact .fails _
  · split
    · exact .fails _
    · split
      · exact .fails _
      · split
        · exact .fails _
        · exact .change (fun _ => addPropdef_false) (fun _ => rfl) fun _ => .done _ _

theorem bfDeleteProp_atomic (db : Db) (oid : ℤ) (pname : CStr) (progr : ℤ) :
    db.Atomic (bfDeleteProp db oid pname progr) := by
  unfold bfDeleteProp
  split
  · exact .fails _
  · split
    · exact .fails _
    · exact .change (fun _ => deletePropdef_false) (fun _ => rfl) fun _ => .done _ _

theorem setPropInfo_atomic (newPtr : ℕ) (db : Db) (oid : ℤ) (pname : CStr) (info : Var)
    (progr : ℤ) : db.Atomic (setPropInfo newPtr db oid pname info progr) := by
  unfold setPropInfo
  split
  · exact .fails _
  · split
    · exact .fails _
    · apply Atomic.bind
      intro h _
      split
      · exact .fails _
      · exact .fails _
      · apply Atomic.bind
        intro pval _
        split
        · exact .fails _
        · split
          · exact .bind fun _ _ => .done _ _
          · exact .change (fun _ => renamePropdef_false) (fun _ => rfl)
              fun _ => .bind fun _ _ => .bind fun _ _ => .done _ _

end Db
end LambdaMoo.Database
