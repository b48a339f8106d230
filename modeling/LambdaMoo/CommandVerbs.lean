import LambdaMoo.Commands

/-!
# Verbs of commands

The names of prepositions and the verb that a command runs: on the player, its
location, the direct or the indirect object, whichever comes first, the nearest
verb along the ancestors that has the name and takes the arguments.
-/

set_option autoImplicit false

namespace LambdaMoo.Database
open LambdaMoo.Words

def dbUnparsePrep (prep : ℕ) : Str := (prepList[prep]?).getD []

/-- The number that `db_match_prep` reads, as the `int` that holds it; one below zero is greater
than the size of the table. -/
def prepNumber (s : Str) : ℤ :=
  let prep := toInt32 (DbIo.strtoll s).1
  if s.head?.any Decimal.isDigit ∧ 0 ≤ prep ∧ prep < prepTable.length then prep else PREP_NONE

def dbMatchPrep (prepname : Str) : Result ℤ := do
  let s := if prepname.head? = some 35 then prepname.tail else prepname
  if (DbIo.strtoll s).2 = [] then return prepNumber s
  else
    let argv := (← parseIntoWords (s.takeWhile (· ≠ 47))).argv
    return ((exactPrep argv).map Int.ofNat).getD PREP_NONE

theorem exactPrep_lt {argv : List Str} {j : ℕ} (h : exactPrep argv = some j) :
    j < prepTable.length := by
  rw [exactPrep] at h
  split at h
  · cases h
  · obtain ⟨e, he, rfl⟩ := Option.map_eq_some_iff.mp h
    rw [tryTable_eq] at he
    obtain ⟨phrase, hp, rfl⟩ := Option.map_eq_some_iff.mp he
    have hall : ∀ e ∈ phrases, e.1 < prepTable.length := by decide
    exact hall phrase (List.mem_of_find?_eq_some hp)

theorem prepNumber_range (s : Str) :
    prepNumber s = PREP_NONE ∨ 0 ≤ prepNumber s ∧ prepNumber s < prepTable.length := by
  rw [prepNumber]
  split
  · next h => exact .inr h.2
  · exact .inl rfl

/-- Any text is read as a preposition of the table or as none. -/
theorem dbMatchPrep_range {prepname : Str} (h0 : 0 ∉ prepname) : ∃ prep,
    dbMatchPrep prepname = .ok prep ∧ (prep = PREP_NONE ∨ 0 ≤ prep ∧ prep < prepTable.length) := by
  rw [dbMatchPrep]
  generalize hs : (if prepname.head? = some 35 then prepname.tail else prepname) = s
  have hs0 : 0 ∉ s := by
    rw [← hs]
    split
    · exact fun h => h0 (List.mem_of_mem_tail h)
    · exact h0
  dsimp only
  split
  · exact ⟨_, rfl, prepNumber_range s⟩
  · obtain ⟨r, hr, -⟩ := parseIntoWords_eq (s := s.takeWhile (· ≠ 47))
      fun h => hs0 (List.takeWhile_subset _ h)
    refine ⟨_, bind_ok.mpr ⟨r, hr, rfl⟩, ?_⟩
    cases hj : exactPrep r.argv with
    | none => exact .inl rfl
    | some j => exact .inr ⟨Int.natCast_nonneg j, Int.ofNat_lt.mpr (exactPrep_lt hj)⟩

/-- A preposition is read back from its names. -/
theorem dbMatchPrep_unparse : ∀ prep < prepTable.length,
    dbMatchPrep (dbUnparsePrep prep) = .ok prep := by
  decide +kernel

def ASPEC_NONE : ℕ := 0
def ASPEC_ANY : ℕ := 1
def ASPEC_THIS : ℕ := 2

/-- Whether a verb is one of a name and takes the arguments. -/
def Verbdef.takes (verb : Str) (dobj : ℕ) (prep : ℤ) (iobj : ℕ) (v : Verbdef) : Bool :=
  verbcasecmp v.name.str verb && (v.dobj = ASPEC_ANY || v.dobj = dobj) &&
    (v.prep = PREP_ANY || v.prep = prep) && (v.iobj = ASPEC_ANY || v.iobj = iobj)

/-- The loops over the objects and their verbs. -/
def searchCommandVerb (kind : Verbdef → Bool) : List (ℤ × Object) → Option (ℤ × Verbdef)
  | [] => none
  | (oid, o)::rest =>
    match o.verbdefs.find? kind with
    | some v => some (oid, v)
    | none => searchCommandVerb kind rest

namespace Db

def findCommandVerb (db : Db) (oid : ℤ) (verb : Str) (dobj : ℕ) (prep : ℤ) (iobj : ℕ) :
    Result (Option (ℤ × Verbdef)) := do
  return searchCommandVerb (Verbdef.takes verb dobj prep iobj) (← db.ancestors db.fuel oid)

def aspecOf (obj oid : ℤ) : ℕ :=
  if obj = oid then ASPEC_THIS else if obj = nothing then ASPEC_NONE else ASPEC_ANY

def findVerbOn (db : Db) (pc : ParsedCommand) (oid : ℤ) : Result (Option (ℤ × Verbdef)) :=
  if db.valid oid then
    db.findCommandVerb oid pc.verb (aspecOf pc.dobj oid) pc.prep (aspecOf pc.iobj oid)
  else .ok none

/-- The first of some objects on which the verb is found, with the verb. -/
def findVerbAmong (db : Db) (pc : ParsedCommand) : List ℤ → Result (Option (ℤ × ℤ × Verbdef))
  | [] => .ok none
  | this::rest => do
    match ← db.findVerbOn pc this with
    | some vh => return some (this, vh)
    | none => findVerbAmong db pc rest

/-- The part of `do_command_task` that looks for the verb. -/
def commandVerb (db : Db) (player : ℤ) (pc : ParsedCommand) :
    Result (Option (ℤ × ℤ × Verbdef)) := do
  let location ← if db.valid player then (return (← db.object player).place.up) else .ok nothing
  db.findVerbAmong pc [player, location, pc.dobj, pc.iobj]

end Db

/-- The nearest verb of a kind along the ancestors of an object. -/
structure Nearest (db : Db) (kind : Verbdef → Bool) (oid definer : ℤ) (v : Verbdef) : Prop where
  taken : kind v = true
  place : ∃ before o after, db.Lineage oid (before ++ (definer, o)::after) ∧
    (∀ a ∈ before, ∀ u ∈ a.2.verbdefs, kind u = false) ∧
    ∃ us us', o.verbdefs = us ++ v::us' ∧ ∀ u ∈ us, kind u = false

theorem searchCommandVerb_some {kind : Verbdef → Bool} {chain : List (ℤ × Object)} {definer : ℤ}
    {v : Verbdef} (h : searchCommandVerb kind chain = some (definer, v)) :
    kind v = true ∧ ∃ before o after, chain = before ++ (definer, o)::after ∧
      (∀ a ∈ before, ∀ u ∈ a.2.verbdefs, kind u = false) ∧
      ∃ us us', o.verbdefs = us ++ v::us' ∧ ∀ u ∈ us, kind u = false := by
  induction chain with
  | nil => cases h
  | cons a rest ih =>
    obtain ⟨oid, o⟩ := a
    rw [searchCommandVerb] at h
    split at h
    · next w hw =>
      cases h
      obtain ⟨hv, us, us', hus, hno⟩ := List.find?_eq_some_iff_append.mp hw
      exact ⟨hv, [], o, rest, rfl, by simp, us, us', hus, by simpa using hno⟩
    · next hw =>
      obtain ⟨hv, before, o', after, rfl, hbefore, hus⟩ := ih h
      refine ⟨hv, (oid, o)::before, o', after, rfl, ?_, hus⟩
      intro a ha
      rcases List.mem_cons.mp ha with rfl|ha
      · simpa using List.find?_eq_none.mp hw
      · exact hbefore a ha

theorem searchCommandVerb_none {kind : Verbdef → Bool} {chain : List (ℤ × Object)} :
    searchCommandVerb kind chain = none ↔ ∀ a ∈ chain, ∀ u ∈ a.2.verbdefs, kind u = false := by
  induction chain with
  | nil => simp [searchCommandVerb]
  | cons a rest ih =>
    obtain ⟨oid, o⟩ := a
    rw [searchCommandVerb, List.forall_mem_cons, ← ih]
    split
    · next w hw =>
      obtain ⟨hv, us, us', hus, -⟩ := List.find?_eq_some_iff_append.mp hw
      refine iff_of_false (by simp) fun hno => ?_
      have := hno.1 w (by simp [hus])
      rw [hv] at this
      cases this
    · next hw =>
      have hnone : ∀ u ∈ o.verbdefs, kind u = false := by simpa using List.find?_eq_none.mp hw
      exact (and_iff_right hnone).symm

/-- The verb that the command runs on an object. -/
def Runs (db : Db) (pc : ParsedCommand) (this definer : ℤ) (v : Verbdef) : Prop :=
  db.valid this = true ∧ Nearest db (Verbdef.takes pc.verb (Db.aspecOf pc.dobj this) pc.prep
    (Db.aspecOf pc.iobj this)) this definer v

section Commands
variable {db : Db} (hf : Forest.IsForest nothing db.kin) (pc : ParsedCommand)
include hf

theorem findVerbOn_eq (this : ℤ) : ∃ r, db.findVerbOn pc this = .ok r ∧
    (∀ definer v, r = some (definer, v) → Runs db pc this definer v) ∧
    (r = none → ∀ definer v, ¬Runs db pc this definer v) := by
  rw [Db.findVerbOn]
  split
  · next hv =>
    obtain ⟨chain, hc, hl⟩ := Db.ancestors_eq hf this
    refine ⟨_, bind_ok.mpr ⟨chain, hc, rfl⟩, fun definer v hr => ?_, fun hr definer v hruns => ?_⟩
    · obtain ⟨htaken, before, o, after, rfl, hrest⟩ := searchCommandVerb_some hr
      exact ⟨hv, htaken, before, o, after, hl, hrest⟩
    · obtain ⟨-, htaken, before, o, after, hl', -, us, us', hus, -⟩ := hruns
      obtain rfl := hl.unique hl'
      have := searchCommandVerb_none.mp hr (definer, o) (by simp) v (by simp [hus])
      rw [htaken] at this
      cases this
  · next hv => exact ⟨none, rfl, by simp, fun _ definer v hruns => hv hruns.1⟩

theorem findVerbAmong_eq (places : List ℤ) : ∃ r, db.findVerbAmong pc places = .ok r ∧
    (∀ this definer v, r = some (this, definer, v) → Runs db pc this definer v ∧
      ∃ before after, places = before ++ this::after ∧
        ∀ t ∈ before, ∀ definer v, ¬Runs db pc t definer v) ∧
    (r = none → ∀ t ∈ places, ∀ definer v, ¬Runs db pc t definer v) := by
  induction places with
  | nil => exact ⟨none, rfl, by simp, by simp⟩
  | cons t rest ih =>
    obtain ⟨r, hr, hsome, hnone⟩ := findVerbOn_eq hf pc t
    cases r with
    | some vh =>
      refine ⟨some (t, vh), bind_ok.mpr ⟨_, hr, rfl⟩, ?_, by simp⟩
      rintro this definer v h
      cases h
      exact ⟨hsome _ _ rfl, [], rest, rfl, by simp⟩
    | none =>
      obtain ⟨r, hrest, hsome', hnone'⟩ := ih
      refine ⟨r, bind_ok.mpr ⟨_, hr, hrest⟩, ?_, fun h => ?_⟩
      · intro this definer v h
        obtain ⟨hruns, before, after, rfl, hbefore⟩ := hsome' this definer v h
        exact ⟨hruns, t::before, after, rfl, List.forall_mem_cons.mpr ⟨hnone rfl, hbefore⟩⟩
      · exact List.forall_mem_cons.mpr ⟨hnone rfl, hnone' h⟩

/-- A command runs a verb on the first of the player, its location, the direct and the indirect
object that has one, and on each of them the nearest along its ancestors. -/
theorem commandVerb_first (player : ℤ) {o : Object} (ho : db.objects player = some o) :
    ∃ r, db.commandVerb player pc = .ok r ∧
      (∀ this definer v, r = some (this, definer, v) → Runs db pc this definer v ∧
        ∃ before after, [player, o.place.up, pc.dobj, pc.iobj] = before ++ this::after ∧
          ∀ t ∈ before, ∀ definer v, ¬Runs db pc t definer v) ∧
      (r = none → ∀ t ∈ [player, o.place.up, pc.dobj, pc.iobj], ∀ definer v,
        ¬Runs db pc t definer v) := by
  obtain ⟨r, hr, hrest⟩ := findVerbAmong_eq hf pc [player, o.place.up, pc.dobj, pc.iobj]
  have hv : db.valid player = true := by rw [Db.valid, Db.find_eq, ho, Option.isSome_some]
  refine ⟨r, ?_, hrest⟩
  rw [Db.commandVerb, if_pos hv, Db.object_ok ho]
  exact hr

end Commands

end LambdaMoo.Database
