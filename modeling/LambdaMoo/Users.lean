import LambdaMoo.Operations
import LambdaMoo.SharedLists

/-!
# The list of users

The objects with the user flag, in the list that `players()` returns by
reference. Setting and clearing the flag and destroying an object go through
the functions on lists, which copy what is shared. Renumbering a user stores
into the list itself, so a program that holds the list sees it change.
-/

set_option autoImplicit false

namespace LambdaMoo.Database

inductive Flag where
  | user | programmer | wizard | read | write | fertile
  deriving DecidableEq, Repr

def Flags.set (fs : Flags) (f : Flag) (b : Bool) : Flags :=
  match f with
  | .user => { fs with user := b }
  | .programmer => { fs with programmer := b }
  | .wizard => { fs with wizard := b }
  | .read => { fs with read := b }
  | .write => { fs with write := b }
  | .fertile => { fs with fertile := b }

def setadd (users : List ℤ) (oid : ℤ) : List ℤ := if oid ∈ users then users else users ++ [oid]

namespace Db

def withFlag (db : Db) (oid : ℤ) (f : Flag) (b : Bool) : Db :=
  db.modify oid fun o => { o with flags := o.flags.set f b }

/-- The list of users after the user flag of an object has become `b`. -/
def usersWith (users : List ℤ) (oid : ℤ) (b : Bool) : List ℤ :=
  if b then setadd users oid else users.erase oid

def changeFlag (db : Db) (oid : ℤ) (f : Flag) (b : Bool) : Result Db := do
  let _ ← db.object oid
  return { db.withFlag oid f b with
    allUsers := if f = .user then usersWith db.allUsers oid b else db.allUsers }

def setObjectFlag (db : Db) (oid : ℤ) (f : Flag) : Result Db := db.changeFlag oid f true

def clearObjectFlag (db : Db) (oid : ℤ) (f : Flag) : Result Db := db.changeFlag oid f false

/-- The list has every valid object with the user flag once, and nothing else. -/
structure UsersExact (db : Db) : Prop where
  nodup : db.allUsers.Nodup
  mem : ∀ i, i ∈ db.allUsers ↔ db.isUser i = true

end Db

open Shared

/-- The database with the lists in memory: `allUsers` is the address of the list of users, and
`held` the references that `players()` gave out and that are still there, each with what the list
was then. -/
structure Server where
  db : Db
  memory : Memory ℤ
  allUsers : ℕ
  held : List (ℕ × List ℤ)

inductive UserOp where
  | create
  | setFlag (oid : ℤ) (f : Flag)
  | clearFlag (oid : ℤ) (f : Flag)
  | destroy (oid : ℤ)
  | renumber (old : ℤ)
  | players
  | release (n : ℕ)
  deriving DecidableEq

namespace Server

def users (s : Server) : List ℤ := (s.memory.value s.allUsers).getD []

/-- `setadd` and `listappend`. -/
def addUser (s : Server) (oid : ℤ) : Server :=
  if oid ∈ s.users then s
  else
    let r := s.memory.append s.allUsers oid
    { s with allUsers := r.1, memory := r.2 }

/-- `setremove` and `listdelete`, which always makes a new list. -/
def removeUser (s : Server) (oid : ℤ) : Server :=
  if oid ∈ s.users then
    let r := s.memory.replace s.allUsers (s.users.erase oid)
    { s with allUsers := r.1, memory := r.2 }
  else s

def create (s : Server) : Server := { s with db := s.db.createObject }

def setFlag (s : Server) (oid : ℤ) (f : Flag) : Result Server := do
  let db ← s.db.setObjectFlag oid f
  let s := { s with db := db }
  return if f = .user then s.addUser oid else s

def clearFlag (s : Server) (oid : ℤ) (f : Flag) : Result Server := do
  let db ← s.db.clearObjectFlag oid f
  let s := { s with db := db }
  return if f = .user then s.removeUser oid else s

def destroy (s : Server) (oid : ℤ) : Result Server := do
  let db ← s.db.destroyObject oid
  let wasUser := s.db.isUser oid
  let s := { s with db := db }
  return if wasUser then s.removeUser oid else s

/-- The store into the list is made whoever else holds it. -/
def renumber (s : Server) (old : ℤ) : Result Server := do
  let (new, db) ← s.db.renumberObject old
  let s' := { s with db := db }
  return if new ≠ old ∧ db.isUser new then
    { s' with memory := s.memory.store s.allUsers (Db.replaceUser old new) }
  else s'

def players (s : Server) : Server :=
  { s with memory := s.memory.ref s.allUsers, held := (s.allUsers, s.users)::s.held }

/-- A program gives up a list. -/
def release (s : Server) (n : ℕ) : Server :=
  match s.held[n]? with
  | some h => { s with memory := s.memory.free h.1, held := s.held.eraseIdx n }
  | none => s

def step (s : Server) : UserOp → Result Server
  | .create => .ok s.create
  | .setFlag oid f => s.setFlag oid f
  | .clearFlag oid f => s.clearFlag oid f
  | .destroy oid => s.destroy oid
  | .renumber old => s.renumber old
  | .players => .ok s.players
  | .release n => .ok (s.release n)

def run (s : Server) : List UserOp → Result Server
  | [] => .ok s
  | op::ops => do run (← s.step op) ops

/-- No user gets another number while a program holds the list of users as it is. -/
def Careful (s : Server) : UserOp → Prop
  | .renumber old => s.db.isUser old = true → (s.db.freeBelow old).isSome = true →
      s.memory.refs s.allUsers = 1
  | _ => True

def CarefulRun (s : Server) : List UserOp → Prop
  | [] => True
  | op::ops => s.Careful op ∧ ∀ s', s.step op = .ok s' → CarefulRun s' ops

end Server

namespace Db

theorem isUser_eq (db : Db) (i : ℤ) :
    db.isUser i = (((db.objects i).map Object.flags).map Flags.user).getD false := by
  rw [isUser, find_eq]
  cases db.objects i <;> rfl

theorem isUser_congr {db db' : Db} {i j : ℤ}
    (h : (db'.objects i).map Object.flags = (db.objects j).map Object.flags) :
    db'.isUser i = db.isUser j := by
  rw [isUser_eq, isUser_eq, h]

/-- The flags and the list of users are what they were. -/
structure SameUsers (db db' : Db) : Prop where
  flags : ∀ i, (db'.objects i).map Object.flags = (db.objects i).map Object.flags
  users : db'.allUsers = db.allUsers

theorem SameUsers.exact {db db' : Db} (h : db.SameUsers db') (he : db.UsersExact) :
    db'.UsersExact := by
  refine ⟨h.users ▸ he.nodup, ?_⟩
  intro i
  rw [h.users, isUser_congr (h.flags i)]
  exact he.mem i

theorem fixOwners_same {db db' : Db} {old new : ℤ} (h : db.fixOwners old new = .ok db') :
    db.SameUsers db' := by
  rw [fixOwners] at h
  generalize List.range db.numObjects = is at h
  induction is generalizing db with
  | nil =>
    obtain rfl := Except.ok.inj h
    exact ⟨fun _ => rfl, rfl⟩
  | cons i is ih =>
    rw [List.foldlM_cons] at h
    obtain ⟨db1, h1, h2⟩ := bind_ok.mp h
    obtain ⟨hf, hu⟩ := ih h2
    cases ho : db.objects i with
    | none =>
      rw [ho] at h1
      obtain rfl := Except.ok.inj h1
      exact ⟨hf, hu⟩
    | some o =>
      rw [ho] at h1
      obtain ⟨count, -, hif⟩ := bind_ok.mp h1
      by_cases hle : count ≤ o.propval.length
      · rw [if_pos hle] at hif
        obtain rfl := pure_ok.mp hif
        refine ⟨fun j => ?_, hu⟩
        rw [hf j, db.modify_field Object.flags (renameOwners old new count) (fun _ => rfl)]
      · rw [if_neg hle] at hif
        cases hif

/-- A user and the list of users under a new number. -/
structure UserMoved (db db' : Db) (old new : ℤ) : Prop where
  free : db.objects new = none
  flags : ∀ i, (db'.objects i).map Object.flags =
    (if i = new then db.objects old else if i = old then none else db.objects i).map Object.flags
  users : db'.allUsers = if db.isUser old then replaceUser old new db.allUsers else db.allUsers

theorem renumberObject_users {db db' : Db} {old new : ℤ}
    (h : db.renumberObject old = .ok (new, db')) :
    db.freeBelow old = none ∧ new = old ∧ db.SameUsers db' ∨
      (db.freeBelow old).isSome = true ∧ new ≠ old ∧ db.UserMoved db' old new := by
  unfold renumberObject at h
  split at h
  · next hfree =>
    cases h
    exact .inl ⟨hfree, rfl, fun _ => rfl, rfl⟩
  · next n hfree =>
    obtain ⟨kin, -, h⟩ := bind_ok.mp h
    obtain ⟨place, -, h⟩ := bind_ok.mp h
    obtain ⟨db2, hfix, h⟩ := bind_ok.mp h
    have hpair := pure_ok.mp h
    obtain ⟨rfl, rfl⟩ := Prod.mk.inj hpair
    have hlt := List.mem_range.mp (List.mem_of_find?_eq_some hfree)
    have hnone := List.find?_some hfree
    obtain ⟨hf, hu⟩ := fixOwners_same hfix
    have hmoved : ∀ i, (db2.objects i).map Object.flags =
        (if i = n then db.objects old else if i = old then none else db.objects i).map
          Object.flags := by
      intro i
      rw [hf i]
      show ((((db.moveObject old n _).objects i).map _).map _).map Object.flags = _
      rw [Option.map_map, Option.map_map]
      rfl
    refine .inr ⟨by rw [hfree]; rfl, by omega, Option.isNone_iff_eq_none.mp hnone, hmoved, ?_⟩
    rw [hu]
    have huser : db2.isUser n = db.isUser old := by
      rw [isUser_eq, isUser_eq, hmoved, if_pos rfl]
    have hsame : ∀ i, db2.isUser i = (((db.moveObject old n _).setKin kin).setPlace place).isUser i :=
      fun i => isUser_congr (hf i)
    simp only [← huser, hsame]

theorem replaceUser_split {old new : ℤ} {pre : List ℤ} (hpre : old ∉ pre) (post : List ℤ) :
    replaceUser old new (pre ++ old::post) = pre ++ new::post := by
  have hnone : pre.findIdx? (· = old) = none := by
    rw [List.findIdx?_eq_none_iff]
    intro x hx
    rw [decide_eq_false_iff_not]
    intro heq
    exact hpre (heq ▸ hx)
  rw [replaceUser, List.findIdx?_append, hnone]
  simp [List.findIdx?_cons]

theorem mem_replaceUser {old new : ℤ} {users : List ℤ} (hn : users.Nodup) (hnew : new ∉ users)
    (hold : old ∈ users) :
    (replaceUser old new users).Nodup ∧
      ∀ i, i ∈ replaceUser old new users ↔ i = new ∨ i ∈ users ∧ i ≠ old := by
  obtain ⟨pre, post, rfl⟩ := List.append_of_mem hold
  obtain ⟨hout, hrest⟩ := List.nodup_cons.mp (List.nodup_middle.mp hn)
  have hpre : old ∉ pre := fun h => hout (List.mem_append_left _ h)
  have hpost : old ∉ post := fun h => hout (List.mem_append_right _ h)
  rw [replaceUser_split hpre]
  constructor
  · apply List.nodup_middle.mpr
    refine List.nodup_cons.mpr ⟨fun hmem => hnew ?_, hrest⟩
    rcases List.mem_append.mp hmem with h|h
    · exact List.mem_append_left _ h
    · exact List.mem_append_right _ (List.mem_cons_of_mem _ h)
  · intro i
    simp only [List.mem_append, List.mem_cons]
    constructor
    · rintro (h|rfl|h)
      · exact .inr ⟨.inl h, fun he => hpre (he ▸ h)⟩
      · exact .inl rfl
      · exact .inr ⟨.inr (.inr h), fun he => hpost (he ▸ h)⟩
    · rintro (rfl|⟨h|h|h, hne⟩)
      · exact .inr (.inl rfl)
      · exact .inl h
      · exact absurd h hne
      · exact .inr (.inr h)

theorem UserMoved.exact {db db' : Db} {old new : ℤ} (h : db.UserMoved db' old new)
    (hne : new ≠ old) (he : db.UsersExact) : db'.UsersExact := by
  have huser : ∀ i, db'.isUser i = if i = new then db.isUser old else
      if i = old then false else db.isUser i := by
    intro i
    rw [isUser_eq, h.flags]
    by_cases hi : i = new
    · rw [if_pos hi, if_pos hi, isUser_eq]
    · rw [if_neg hi, if_neg hi]
      by_cases hi' : i = old
      · rw [if_pos hi', if_pos hi']
        rfl
      · rw [if_neg hi', if_neg hi', isUser_eq]
  have hnew : new ∉ db.allUsers := by
    intro hmem
    have := (he.mem new).mp hmem
    rw [isUser_eq, h.free] at this
    cases this
  by_cases hold : db.isUser old = true
  · obtain ⟨hnd, hmem⟩ := mem_replaceUser he.nodup hnew ((he.mem old).mpr hold)
    have husers := h.users
    rw [if_pos hold] at husers
    refine ⟨husers ▸ hnd, ?_⟩
    intro i
    rw [husers, hmem, huser, he.mem]
    by_cases hi : i = new
    · simp [hi, hold]
    · by_cases hi' : i = old
      · simp [hi', Ne.symm hne]
      · simp [hi, hi']
  · have husers := h.users
    rw [if_neg hold] at husers
    refine ⟨husers ▸ he.nodup, ?_⟩
    intro i
    rw [husers, huser, he.mem]
    by_cases hi : i = new
    · subst hi
      have : ¬ db.isUser i = true := fun hx => hnew ((he.mem i).mpr hx)
      simp [hold, this]
    · by_cases hi' : i = old
      · subst hi'
        simp [hi, hold]
      · simp [hi, hi']

theorem createObject_exact {db : Db} (he : db.UsersExact) : db.createObject.UsersExact := by
  refine ⟨he.nodup, ?_⟩
  intro i
  have huser : db.createObject.isUser i = db.isUser i := by
    rw [isUser_eq, isUser_eq]
    by_cases hi : i = db.numObjects
    · have hnone : db.objects i = none := by
        cases ho : db.objects i with
        | none => rfl
        | some o =>
          have := (db.bounded i (by simp [ho])).2
          omega
      rw [hnone]
      simp [createObject, hi, noFlags]
    · simp [createObject, hi]
  rw [huser]
  exact he.mem i

theorem withFlag_user {db : Db} {oid : ℤ} (hv : (db.objects oid).isSome = true) (f : Flag)
    (b : Bool) (i : ℤ) :
    (db.withFlag oid f b).isUser i = if i = oid ∧ f = .user then b else db.isUser i := by
  obtain ⟨o, ho⟩ := Option.isSome_iff_exists.mp hv
  rw [isUser_eq, withFlag]
  by_cases hi : i = oid
  · subst hi
    rw [modify_self ho, isUser_eq, ho]
    cases f <;> simp [Flags.set]
  · rw [modify_ne db hi, ← isUser_eq, if_neg (by simp [hi])]

/-- What is done to the list of users of a database whose user flags change at one object. -/
theorem exact_of_flag {db db' : Db} {oid : ℤ} {b : Bool} (he : db.UsersExact)
    (hu : ∀ i, db'.isUser i = if i = oid then b else db.isUser i)
    (hl : db'.allUsers = usersWith db.allUsers oid b) : db'.UsersExact := by
  rw [usersWith] at hl
  cases b with
  | true =>
    rw [if_pos rfl, setadd] at hl
    by_cases hmem : oid ∈ db.allUsers
    · rw [if_pos hmem] at hl
      refine ⟨hl ▸ he.nodup, ?_⟩
      intro i
      rw [hl, hu, he.mem]
      by_cases hi : i = oid
      · subst hi
        simp [(he.mem i).mp hmem]
      · simp [hi]
    · rw [if_neg hmem] at hl
      refine ⟨?_, ?_⟩
      · rw [hl]
        apply List.nodup_append.mpr
        refine ⟨he.nodup, by simp, ?_⟩
        intro x hx y hy heq
        rw [List.mem_singleton] at hy
        exact hmem (hy ▸ heq ▸ hx)
      · intro i
        rw [hl, hu, List.mem_append, List.mem_singleton, he.mem]
        by_cases hi : i = oid <;> simp [hi]
  | false =>
    simp only [Bool.false_eq_true, if_false] at hl
    refine ⟨hl ▸ he.nodup.erase oid, ?_⟩
    intro i
    rw [hl, hu, he.nodup.mem_erase_iff, he.mem]
    by_cases hi : i = oid <;> simp [hi]

theorem changeFlag_exact {db db' : Db} {oid : ℤ} {f : Flag} {b : Bool} (he : db.UsersExact)
    (h : db.changeFlag oid f b = .ok db') :
    db'.UsersExact ∧
      db'.allUsers = if f = .user then usersWith db.allUsers oid b else db.allUsers := by
  obtain ⟨o, ho, h⟩ := bind_ok.mp h
  have hv : (db.objects oid).isSome = true := by
    rw [object, find_eq] at ho
    cases hx : db.objects oid with
    | none => simp [hx, deref] at ho
    | some o => rfl
  obtain rfl := pure_ok.mp h
  refine ⟨?_, rfl⟩
  have hu := withFlag_user hv f b
  by_cases hf : f = .user
  · subst hf
    exact exact_of_flag he (fun i => (hu i).trans (by simp)) rfl
  · simp only [hf, and_false, if_false] at hu ⊢
    refine ⟨he.nodup, ?_⟩
    intro i
    exact (he.mem i).trans (Eq.congr_left (hu i)).symm

theorem destroyObject_exact {db db' : Db} {oid : ℤ} (he : db.UsersExact)
    (h : db.destroyObject oid = .ok db') :
    db'.UsersExact ∧
      db'.allUsers = if db.isUser oid then db.allUsers.erase oid else db.allUsers := by
  rw [destroyObject] at h
  split at h
  · cases h
  · split at h
    · cases h
    · obtain rfl := Except.ok.inj h
      refine ⟨@exact_of_flag _ _ oid false he (fun i => ?_) ?_, rfl⟩
      · show (db.dropObject oid).isUser i = _
        rw [isUser_eq]
        by_cases hi : i = oid
        · simp [dropObject, hi]
        · simp [dropObject, hi, isUser_eq]
      · show (if db.isUser oid then db.allUsers.erase oid else db.allUsers) = db.allUsers.erase oid
        by_cases hu : db.isUser oid = true
        · rw [if_pos hu]
        · have : oid ∉ db.allUsers := fun hm => hu ((he.mem oid).mp hm)
          rw [if_neg hu, List.erase_of_not_mem this]

end Db

namespace Server
open Db

/-- The references there are, and what they see. -/
structure Inv (s : Server) : Prop where
  counted : Counted s.memory (s.allUsers::s.held.map Prod.fst)
  value : s.memory.value s.allUsers = some s.db.allUsers
  held : ∀ h ∈ s.held, s.memory.value h.1 = some h.2

theorem Inv.users {s : Server} (h : s.Inv) : s.users = s.db.allUsers := by
  rw [Server.users, h.value]
  rfl

/-- The list of users is replaced, and the held ones are not touched. -/
theorem Inv.change {s : Server} (h : s.Inv) {r : ℕ × Memory ℤ} {db : Db}
    (hr : Counted.Changed s.memory (s.held.map Prod.fst) r db.allUsers) :
    Inv { s with db := db, allUsers := r.1, memory := r.2 } := by
  refine ⟨hr.counted, hr.value, ?_⟩
  intro x hx
  exact (hr.others x.1 (List.mem_map_of_mem hx)).trans (h.held x hx)

theorem Inv.sameList {s : Server} (h : s.Inv) {db : Db} (hdb : db.allUsers = s.db.allUsers) :
    Inv { s with db := db } :=
  ⟨h.counted, h.value.trans (congrArg some hdb.symm), h.held⟩

theorem Inv.addUser {s : Server} (h : s.Inv) {db : Db} {oid : ℤ}
    (hdb : db.allUsers = setadd s.db.allUsers oid) : Inv (addUser { s with db := db } oid) := by
  have hu : ({ s with db := db } : Server).users = s.db.allUsers := h.users
  rw [Server.addUser, hu]
  rw [setadd] at hdb
  by_cases hmem : oid ∈ s.db.allUsers
  · rw [if_pos hmem] at hdb ⊢
    exact h.sameList hdb
  · rw [if_neg hmem] at hdb ⊢
    have := h.counted.append h.value oid
    rw [← hdb] at this
    exact h.change this

theorem Inv.removeUser {s : Server} (h : s.Inv) {db : Db} {oid : ℤ}
    (hdb : db.allUsers = s.db.allUsers.erase oid) : Inv (removeUser { s with db := db } oid) := by
  have hu : ({ s with db := db } : Server).users = s.db.allUsers := h.users
  rw [Server.removeUser, hu]
  by_cases hmem : oid ∈ s.db.allUsers
  · rw [if_pos hmem, ← hdb]
    exact h.change (h.counted.replace db.allUsers)
  · rw [if_neg hmem]
    rw [List.erase_of_not_mem hmem] at hdb
    exact h.sameList hdb

theorem Inv.players {s : Server} (h : s.Inv) : s.players.Inv := by
  obtain ⟨hc, hv⟩ := h.counted.ref (p := s.allUsers) List.mem_cons_self
  refine ⟨hc, (hv s.allUsers).trans h.value, ?_⟩
  intro x hx
  rw [Server.players] at hx ⊢
  rcases List.mem_cons.mp hx with rfl|hx
  · exact (hv s.allUsers).trans (h.value.trans (congrArg some h.users.symm))
  · exact (hv x.1).trans (h.held x hx)

theorem Inv.release {s : Server} (h : s.Inv) (n : ℕ) : (s.release n).Inv := by
  rw [Server.release]
  cases hn : s.held[n]? with
  | none => exact h
  | some x =>
    obtain ⟨hlt, hx⟩ := List.getElem?_eq_some_iff.mp hn
    have hperm : (x::s.held.eraseIdx n).Perm s.held := by
      rw [← hx]
      exact List.getElem_cons_eraseIdx_perm hlt
    have hc : Counted s.memory (x.1::s.allUsers::(s.held.eraseIdx n).map Prod.fst) := by
      apply h.counted.perm
      exact ((hperm.symm.map Prod.fst).cons s.allUsers).trans (.swap _ _ _)
    obtain ⟨hf, hv⟩ := hc.free
    refine ⟨hf, (hv s.allUsers List.mem_cons_self).trans h.value, ?_⟩
    intro y hy
    have hmem : y ∈ s.held := List.mem_of_mem_eraseIdx hy
    exact (hv y.1 (List.mem_cons_of_mem _ (List.mem_map_of_mem hy))).trans (h.held y hmem)

theorem Inv.store {s : Server} (h : s.Inv) (h1 : s.memory.refs s.allUsers = 1) {db : Db}
    {f : List ℤ → List ℤ} (hdb : db.allUsers = f s.db.allUsers) :
    Inv { s with db := db, memory := s.memory.store s.allUsers f } := by
  obtain ⟨hc, hv, hothers⟩ := h.counted.store f
  have hnot := h.counted.not_mem_of_refs h1
  refine ⟨hc, ?_, ?_⟩
  · show (s.memory.store s.allUsers f).value s.allUsers = some db.allUsers
    rw [hv, h.value, hdb]
    rfl
  · intro x hx
    have hne : x.1 ≠ s.allUsers := fun heq => hnot (heq ▸ List.mem_map_of_mem hx)
    exact (hothers x.1 hne).trans (h.held x hx)

theorem renumber_inv {s s' : Server} {old : ℤ} (h : s.Inv) (he : s.db.UsersExact)
    (hc : s.Careful (.renumber old)) (hs : s.renumber old = .ok s') :
    s'.Inv ∧ s'.db.UsersExact := by
  obtain ⟨⟨new, db⟩, hr, hs⟩ := bind_ok.mp hs
  obtain rfl := pure_ok.mp hs
  rcases renumberObject_users hr with ⟨-, rfl, hsame⟩|⟨hfree, hne, hmoved⟩
  · rw [if_neg (by simp)]
    exact ⟨h.sameList hsame.users, hsame.exact he⟩
  · have huser : db.isUser new = s.db.isUser old := by
      rw [isUser_eq, isUser_eq, hmoved.flags, if_pos rfl]
    have hexact := hmoved.exact hne he
    by_cases hold : s.db.isUser old = true
    · have husers := hmoved.users
      rw [if_pos hold] at husers
      rw [if_pos ⟨hne, huser.trans hold⟩]
      exact ⟨h.store (hc hold hfree) husers, hexact⟩
    · have husers := hmoved.users
      rw [if_neg hold] at husers
      rw [if_neg (by simp [huser, hold])]
      exact ⟨h.sameList husers, hexact⟩

theorem step_inv {s s' : Server} {op : UserOp} (h : s.Inv) (he : s.db.UsersExact)
    (hc : s.Careful op) (hs : s.step op = .ok s') : s'.Inv ∧ s'.db.UsersExact := by
  cases op with
  | create =>
    obtain rfl := Except.ok.inj hs
    exact ⟨h.sameList rfl, createObject_exact he⟩
  | setFlag oid f =>
    obtain ⟨db, hdb, hs⟩ := bind_ok.mp hs
    obtain rfl := pure_ok.mp hs
    obtain ⟨hexact, husers⟩ := changeFlag_exact he hdb
    by_cases hf : f = .user
    · rw [if_pos hf] at husers ⊢
      exact ⟨h.addUser husers, by
        rw [Server.addUser]
        split <;> exact hexact⟩
    · rw [if_neg hf] at husers ⊢
      exact ⟨h.sameList husers, hexact⟩
  | clearFlag oid f =>
    obtain ⟨db, hdb, hs⟩ := bind_ok.mp hs
    obtain rfl := pure_ok.mp hs
    obtain ⟨hexact, husers⟩ := changeFlag_exact he hdb
    by_cases hf : f = .user
    · rw [if_pos hf] at husers ⊢
      exact ⟨h.removeUser husers, by
        rw [Server.removeUser]
        split <;> exact hexact⟩
    · rw [if_neg hf] at husers ⊢
      exact ⟨h.sameList husers, hexact⟩
  | destroy oid =>
    obtain ⟨db, hdb, hs⟩ := bind_ok.mp hs
    obtain rfl := pure_ok.mp hs
    obtain ⟨hexact, husers⟩ := destroyObject_exact he hdb
    by_cases hu : s.db.isUser oid = true
    · rw [if_pos hu] at husers ⊢
      exact ⟨h.removeUser husers, by
        rw [Server.removeUser]
        split <;> exact hexact⟩
    · rw [if_neg hu] at husers ⊢
      exact ⟨h.sameList husers, hexact⟩
  | renumber old => exact renumber_inv h he hc hs
  | players =>
    obtain rfl := Except.ok.inj hs
    exact ⟨h.players, he⟩
  | release n =>
    obtain rfl := Except.ok.inj hs
    refine ⟨h.release n, ?_⟩
    rw [Server.release]
    split <;> exact he

theorem run_inv {s s' : Server} {ops : List UserOp} (h : s.Inv) (he : s.db.UsersExact)
    (hc : s.CarefulRun ops) (hs : s.run ops = .ok s') : s'.Inv ∧ s'.db.UsersExact := by
  induction ops generalizing s with
  | nil =>
    obtain rfl := Except.ok.inj hs
    exact ⟨h, he⟩
  | cons op ops ih =>
    obtain ⟨s₁, h₁, hs⟩ := bind_ok.mp hs
    obtain ⟨hinv, hexact⟩ := step_inv h he hc.1 h₁
    exact ih hinv hexact (hc.2 s₁ h₁) hs

/-- A database with its list of users in memory, which nothing else holds. -/
def start (db : Db) : Server := ⟨db, ⟨fun p => if p = 0 then some ⟨1, db.allUsers⟩ else none, 1⟩, 0, []⟩

theorem start_inv (db : Db) : (start db).Inv := by
  refine ⟨⟨?_, ?_⟩, rfl, by simp [start]⟩
  · intro p
    by_cases hp : p = 0
    · subst hp
      rfl
    · simp [start, Memory.refs, hp, List.count_cons_of_ne (Ne.symm hp)]
  · intro p hp
    by_cases hp0 : p = 0
    · subst hp0
      exact ⟨Nat.one_pos, Nat.one_pos⟩
    · simp [start, hp0] at hp

/-- In every run that renumbers no user while the list of users is held, the list has each user
once and nothing else, and every list that was given out is what it was. -/
theorem users_of_run {db : Db} (he : db.UsersExact) {ops : List UserOp} {s : Server}
    (hc : (start db).CarefulRun ops) (hs : (start db).run ops = .ok s) :
    (s.users.Nodup ∧ ∀ i, i ∈ s.users ↔ s.db.isUser i = true) ∧
      ∀ h ∈ s.held, s.memory.value h.1 = some h.2 := by
  obtain ⟨hinv, hexact⟩ := run_inv (start_inv db) he hc hs
  rw [hinv.users]
  exact ⟨⟨hexact.nodup, hexact.mem⟩, hinv.held⟩

theorem empty_exact : Db.empty.UsersExact := by
  refine ⟨List.nodup_nil, ?_⟩
  intro i
  rw [isUser_eq]
  simp [Db.empty]

theorem CarefulRun.cons {s s₁ : Server} {op : UserOp} {ops : List UserOp} (h : s.Careful op)
    (hs : s.step op = .ok s₁) (hr : s₁.CarefulRun ops) : s.CarefulRun (op::ops) := by
  refine ⟨h, ?_⟩
  intro s' hs'
  obtain rfl := Except.ok.inj (hs.symm.trans hs')
  exact hr

/-- Two objects, of which the first is destroyed and the second, a user, gets its number. -/
def moveUser : List UserOp := [.create, .create, .setFlag 1 .user, .destroy 0, .renumber 1]

theorem moveUser_careful : (start Db.empty).CarefulRun (moveUser ++ [.players]) := by
  refine .cons trivial rfl (.cons trivial rfl (.cons trivial rfl (.cons trivial rfl
    (.cons ?_ rfl (.cons trivial rfl trivial)))))
  intro _ _
  rfl

theorem users_of_run_moved : ∃ s, (start Db.empty).run (moveUser ++ [.players]) = .ok s ∧
    (s.users.Nodup ∧ ∀ i, i ∈ s.users ↔ s.db.isUser i = true) ∧
      ∀ h ∈ s.held, s.memory.value h.1 = some h.2 :=
  ⟨_, rfl, users_of_run empty_exact moveUser_careful rfl⟩

/-- A list that was given out before a user got another number has changed. -/
theorem published_list_changes : ¬ ∀ (ops : List UserOp) (s : Server),
    (start Db.empty).run ops = .ok s →
      (s.users.Nodup ∧ ∀ i, i ∈ s.users ↔ s.db.isUser i = true) ∧
        ∀ h ∈ s.held, s.memory.value h.1 = some h.2 := by
  intro h
  have hheld := (h [.create, .create, .setFlag 1 .user, .destroy 0, .players, .renumber 1] _ rfl).2
  have := hheld (0, [1]) (by decide)
  revert this
  decide

end Server
end LambdaMoo.Database
