import LambdaMoo.Operations
import LambdaMoo.Folding
import LambdaMoo.DbIo
import LambdaMoo.Builtins

/-!
# Matching objects by name

`match_object` goes through the objects around a player and keeps at most one
object whose name is the one given and at most one whose name begins with it.
What it makes of them depends on which objects these are and not on the order
in which they come.
-/

set_option autoImplicit false

namespace LambdaMoo.Database

def ambiguous : ℤ := -2
def failedMatch : ℤ := -3

def aliasesName : CStr := ⟨ascii "aliases", by decide⟩

structure MatchData where
  exactOid : ℤ
  partialOid : ℤ
  deriving DecidableEq, Repr

/-- What a name of an object does to the matches so far; `none` ends the enumeration. -/
def matchName (name : CStr) (oid : ℤ) (d : MatchData) (s : CStr) : Result (Option MatchData) := do
  if (← Strings.mystrncasecmp (s.str ++ [0]) (name.str ++ [0]) name.str.length) = 0 then
    if (← Db.deref (s.str ++ [0])[name.str.length]?) = 0 then
      if d.exactOid = nothing ∨ d.exactOid = oid then return some { d with exactOid := oid }
      else return none
    else if d.partialOid = failedMatch ∨ d.partialOid = oid then
      return some { d with partialOid := oid }
    else return some { d with partialOid := ambiguous }
  else return some d

/-- The loop of `match_proc`. -/
def matchNames (name : CStr) (oid : ℤ) : MatchData → List CStr → Result (Option MatchData)
  | d, [] => .ok (some d)
  | d, s::ss => do
    match ← matchName name oid d s with
    | some d => matchNames name oid d ss
    | none => return none

def strName : Var → Option CStr
  | .str s => some (cstr s)
  | _ => none

namespace Db

def aliases (db : Db) (oid : ℤ) : Result (List Var) := do
  match ← db.findProperty oid aliasesName with
  | some (.slot _ n) =>
    match ← slotValue n (← db.ancestors db.fuel oid) with
    | .list vs => return vs
    | _ => return []
  | _ => return []

/-- The name of an object and the strings among its aliases. -/
def names (db : Db) (oid : ℤ) : Result (List CStr) := do
  return (← db.object oid).name::(← db.aliases oid).filterMap strName

def matchProc (db : Db) (name : CStr) (d : MatchData) (oid : ℤ) : Result (Option MatchData) := do
  matchNames name oid d (← db.names oid)

/-- `db_for_all_contents` with `match_proc`, on the list of contents. -/
def matchAll (db : Db) (name : CStr) : MatchData → List ℤ → Result (Option MatchData)
  | d, [] => .ok (some d)
  | d, c::cs => do
    match ← db.matchProc name d c with
    | some d => matchAll db name d cs
    | none => return none

/-- The loop over the player and its location. -/
def matchPlaces (db : Db) (name : CStr) : MatchData → List ℤ → Result (Option MatchData)
  | d, [] => .ok (some d)
  | d, oid::oids => do
    if db.valid oid then
      match ← db.matchAll name d (← db.contents oid) with
      | some d => matchPlaces db name d oids
      | none => return none
    else matchPlaces db name d oids

def matchContents (db : Db) (player : ℤ) (name : CStr) : Result ℤ :=
  if db.valid player then do
    let loc := (← db.object player).place.up
    match ← db.matchPlaces name ⟨nothing, failedMatch⟩ [player, loc] with
    | none => return ambiguous
    | some d => return if d.exactOid ≠ nothing then d.exactOid else d.partialOid
  else .ok failedMatch

def matchObject (db : Db) (player : ℤ) (name : CStr) : Result ℤ :=
  match name.str with
  | [] => .ok nothing
  | c::s =>
    if c = 35 then
      let r := DbIo.strtoll s
      if r.2 ≠ [] ∨ !db.valid r.1.toInt then .ok failedMatch else .ok r.1.toInt
    else if !db.valid player then .ok failedMatch
    else if mystrcasecmp name.str (ascii "me") = 0 then .ok player
    else if mystrcasecmp name.str (ascii "here") = 0 then do
      return (← db.object player).place.up
    else db.matchContents player name

end Db

section Step
variable (name : CStr) (oid : ℤ) (d : MatchData) (s : CStr)

/-- The name given is the beginning of another, up to case. -/
def Begins : Prop := name.fold <+: s.fold

instance : Decidable (Begins name s) := inferInstanceAs (Decidable (_ <+: _))

theorem matchName_eq : matchName name oid d s = .ok (
    if s.fold = name.fold then
      if d.exactOid = nothing ∨ d.exactOid = oid then some { d with exactOid := oid } else none
    else if Begins name s then
      if d.partialOid = failedMatch ∨ d.partialOid = oid then some { d with partialOid := oid }
      else some { d with partialOid := ambiguous }
    else some d) := by
  obtain ⟨r, hr, hz⟩ := Strings.Folding.ncmp_zero Strings.caseless name.noNul s.noNul
  have hr : Strings.mystrncasecmp (s.str ++ [0]) (name.str ++ [0]) name.str.length = .ok r := hr
  have hz : r = 0 ↔ Begins name s := hz
  rw [matchName, hr]
  simp only [bind, Except.bind]
  by_cases hb : Begins name s
  · rw [if_pos (hz.mpr hb)]
    have hle : name.str.length ≤ s.str.length := by
      have := hb.length_le
      simpa [CStr.fold, fold] using this
    have hget : (s.str ++ [0])[name.str.length]? = some 0 ↔ s.fold = name.fold := by
      constructor
      · intro h
        rcases Nat.lt_or_ge name.str.length s.str.length with hlt | hge
        · rw [List.getElem?_append_left hlt] at h
          exact absurd (List.mem_of_getElem? h) s.noNul
        · refine (hb.eq_of_length_le ?_).symm
          simpa [CStr.fold, fold] using hge
      · intro h
        have hl := congrArg List.length h
        rw [CStr.fold, CStr.fold, fold, fold, List.length_map, List.length_map] at hl
        rw [← hl]
        simp
    obtain ⟨c, hc⟩ : ∃ c, (s.str ++ [0])[name.str.length]? = some c :=
      ⟨_, List.getElem?_eq_getElem (by simp; omega)⟩
    rw [hc, Option.some.injEq] at hget
    rw [hc]
    simp only [Db.deref]
    by_cases he : s.fold = name.fold
    · rw [if_pos (hget.mpr he), if_pos he]
      split <;> rfl
    · rw [if_neg (mt hget.mp he), if_neg he, if_pos hb]
      split <;> rfl
  · have he : s.fold ≠ name.fold := fun h => hb (h.symm ▸ List.prefix_rfl : name.fold <+: s.fold)
    rw [if_neg (mt hz.mp hb), if_neg he, if_neg hb]
    rfl

end Step

/-- What is to be chosen, from which objects have the name and which have one that begins so. -/
structure Chosen (E P : ℤ → Prop) (r : ℤ) : Prop where
  only : ∀ o, E o → (∀ o', E o' → o' = o) → r = o
  several : ∀ o o', E o → E o' → o ≠ o' → r = ambiguous
  onlyBegins : (∀ o, ¬E o) → ∀ o, P o → (∀ o', P o' → o' = o) → r = o
  severalBegin : (∀ o, ¬E o) → ∀ o o', P o → P o' → o ≠ o' → r = ambiguous
  missing : (∀ o, ¬E o) → (∀ o, ¬P o) → r = failedMatch

theorem Chosen.unique {E P : ℤ → Prop} {r r' : ℤ} (h : Chosen E P r) (h' : Chosen E P r') :
    r = r' := by
  by_cases he : ∃ o, E o
  · obtain ⟨o, ho⟩ := he
    by_cases hs : ∀ o', E o' → o' = o
    · rw [h.only o ho hs, h'.only o ho hs]
    · push Not at hs
      obtain ⟨o', ho', hne⟩ := hs
      rw [h.several o' o ho' ho hne, h'.several o' o ho' ho hne]
  · have he : ∀ o, ¬E o := fun o ho => he ⟨o, ho⟩
    by_cases hp : ∃ o, P o
    · obtain ⟨o, ho⟩ := hp
      by_cases hs : ∀ o', P o' → o' = o
      · rw [h.onlyBegins he o ho hs, h'.onlyBegins he o ho hs]
      · push Not at hs
        obtain ⟨o', ho', hne⟩ := hs
        rw [h.severalBegin he o' o ho' ho hne, h'.severalBegin he o' o ho' ho hne]
    · have hp : ∀ o, ¬P o := fun o ho => hp ⟨o, ho⟩
      rw [h.missing he hp, h'.missing he hp]

/-- The matches so far stand for the objects `E` and `P` found to have the name or one that
begins so. -/
structure Tally (E P : ℤ → Prop) (d : MatchData) : Prop where
  real : ∀ o, E o ∨ P o → 0 ≤ o
  exactOid : (d.exactOid = nothing ∧ ∀ o, ¬E o) ∨ (E d.exactOid ∧ ∀ o, E o → o = d.exactOid)
  partialOid : (d.partialOid = failedMatch ∧ ∀ o, ¬P o) ∨
    (P d.partialOid ∧ ∀ o, P o → o = d.partialOid) ∨
    (d.partialOid = ambiguous ∧ ∃ o o', P o ∧ P o' ∧ o ≠ o')

theorem Tally.none : Tally (fun _ => False) (fun _ => False) ⟨nothing, failedMatch⟩ :=
  ⟨fun _ h => h.elim False.elim False.elim, .inl ⟨rfl, fun _ => id⟩, .inl ⟨rfl, fun _ => id⟩⟩

theorem Tally.chosen {E P : ℤ → Prop} {d : MatchData} (h : Tally E P d) :
    Chosen E P (if d.exactOid ≠ nothing then d.exactOid else d.partialOid) := by
  have hreal : ∀ o, E o → o ≠ nothing := fun o ho hn => by
    have := h.real o (.inl ho)
    rw [hn] at this
    exact absurd this (by decide)
  rcases h.exactOid with ⟨he, hno⟩ | ⟨he, hall⟩
  · rw [if_neg (not_not.mpr he)]
    constructor
    · exact fun o ho => absurd ho (hno o)
    · exact fun o _ ho => absurd ho (hno o)
    · intro _ o ho hs
      rcases h.partialOid with ⟨-, hn⟩ | ⟨hp, -⟩ | ⟨-, a, b, ha, hb, hne⟩
      · exact absurd ho (hn o)
      · exact hs _ hp
      · exact absurd ((hs a ha).trans (hs b hb).symm) hne
    · intro _ o o' ho ho' hne
      rcases h.partialOid with ⟨-, hn⟩ | ⟨-, hs⟩ | ⟨hp, -⟩
      · exact absurd ho (hn o)
      · exact absurd ((hs o ho).trans (hs o' ho').symm) hne
      · exact hp
    · intro _ hn
      rcases h.partialOid with ⟨hp, -⟩ | ⟨hp, -⟩ | ⟨-, a, -, ha, -⟩
      · exact hp
      · exact absurd hp (hn _)
      · exact absurd ha (hn a)
  · rw [if_pos (hreal _ he)]
    constructor
    · exact fun o _ hs => hs _ he
    · intro o o' ho ho' hne
      exact absurd ((hall o ho).trans (hall o' ho').symm) hne
    · exact fun hn => absurd he (hn _)
    · exact fun hn => absurd he (hn _)
    · exact fun hn => absurd he (hn _)

section Run
variable (name : CStr)

/-- A name that is the one given, and one that only begins so. -/
def Same (s : CStr) : Prop := s.fold = name.fold
def Starts (s : CStr) : Prop := s.fold ≠ name.fold ∧ Begins name s

theorem tally_step {E P : ℤ → Prop} {d : MatchData} (h : Tally E P d) {oid : ℤ} (ho : 0 ≤ oid)
    (s : CStr) : ∃ r, matchName name oid d s = .ok r ∧
      (∀ d', r = some d' → Tally (fun o => E o ∨ o = oid ∧ Same name s)
        (fun o => P o ∨ o = oid ∧ Starts name s) d') ∧
      (r = none → Same name s ∧ ∃ o, E o ∧ o ≠ oid) := by
  refine ⟨_, matchName_eq name oid d s, ?_⟩
  have hreal : ∀ o, (E o ∨ o = oid ∧ Same name s) ∨ (P o ∨ o = oid ∧ Starts name s) → 0 ≤ o := by
    rintro o ((hE | ⟨rfl, -⟩) | (hP | ⟨rfl, -⟩))
    · exact h.real o (.inl hE)
    · exact ho
    · exact h.real o (.inr hP)
    · exact ho
  by_cases he : s.fold = name.fold
  · have hP : (fun o => P o ∨ o = oid ∧ Starts name s) = P := by
      funext o
      exact propext (or_iff_left fun hs => hs.2.1 he)
    rw [if_pos he, hP]
    by_cases hd : d.exactOid = nothing ∨ d.exactOid = oid
    · rw [if_pos hd]
      refine ⟨?_, fun hn => absurd hn (Option.some_ne_none _)⟩
      rintro d' hd'
      obtain rfl := Option.some.inj hd'
      refine ⟨fun o hor => hreal o (hor.imp_right .inl), .inr ⟨.inr ⟨rfl, he⟩, ?_⟩, h.partialOid⟩
      rintro o (hE | ⟨rfl, -⟩)
      · rcases h.exactOid with ⟨-, hno⟩ | ⟨hx, hall⟩
        · exact absurd hE (hno o)
        · rcases hd with hd | hd
          · have := h.real _ (.inl hx)
            rw [hd] at this
            exact absurd this (by decide)
          · exact (hall o hE).trans hd
      · rfl
    · rw [if_neg hd]
      refine ⟨fun d' hd' => absurd hd'.symm (Option.some_ne_none d'), fun _ => ⟨he, ?_⟩⟩
      rcases h.exactOid with ⟨hx, -⟩ | ⟨hx, -⟩
      · exact absurd (.inl hx) hd
      · exact ⟨_, hx, fun hn => hd (.inr hn)⟩
  · have hE : (fun o => E o ∨ o = oid ∧ Same name s) = E := by
      funext o
      exact propext (or_iff_left fun hs => he hs.2)
    rw [if_neg he, hE]
    by_cases hb : Begins name s
    · rw [if_pos hb]
      refine ⟨?_, fun hn => ?_⟩
      · rintro d' hd'
        have hs : Starts name s := ⟨he, hb⟩
        by_cases hd : d.partialOid = failedMatch ∨ d.partialOid = oid
        · rw [if_pos hd] at hd'
          obtain rfl := Option.some.inj hd'
          refine ⟨fun o hor => hreal o (hor.imp_left .inl), h.exactOid,
            .inr (.inl ⟨.inr ⟨rfl, hs⟩, ?_⟩)⟩
          rintro o (hP | ⟨rfl, -⟩)
          · rcases h.partialOid with ⟨-, hno⟩ | ⟨hx, hall⟩ | ⟨hx, -⟩
            · exact absurd hP (hno o)
            · rcases hd with hd | hd
              · have := h.real _ (.inr hx)
                rw [hd] at this
                exact absurd this (by decide)
              · exact (hall o hP).trans hd
            · rcases hd with hd | hd
              · exact absurd (hx.symm.trans hd) (by decide)
              · rw [← hd, hx] at ho
                exact absurd ho (by decide)
          · rfl
        · rw [if_neg hd] at hd'
          obtain rfl := Option.some.inj hd'
          refine ⟨fun o hor => hreal o (hor.imp_left .inl), h.exactOid, .inr (.inr ⟨rfl, ?_⟩)⟩
          rcases h.partialOid with ⟨hx, -⟩ | ⟨hx, -⟩ | ⟨-, a, b, ha, hb, hne⟩
          · exact absurd (.inl hx) hd
          · exact ⟨d.partialOid, oid, .inl hx, .inr ⟨rfl, hs⟩, fun hn => hd (.inr hn)⟩
          · exact ⟨a, b, .inl ha, .inl hb, hne⟩
      · split at hn
        · exact absurd hn (Option.some_ne_none _)
        · exact absurd hn (Option.some_ne_none _)
    · have hP : (fun o => P o ∨ o = oid ∧ Starts name s) = P := by
        funext o
        exact propext (or_iff_left fun hs => hb hs.2.2)
      rw [if_neg hb, hP]
      refine ⟨?_, fun hn => absurd hn (Option.some_ne_none _)⟩
      rintro d' hd'
      exact Option.some.inj hd' ▸ h

theorem matchNames_tally {E P : ℤ → Prop} {d : MatchData} (h : Tally E P d) {oid : ℤ} (ho : 0 ≤ oid)
    (ss : List CStr) : ∃ r, matchNames name oid d ss = .ok r ∧
      (∀ d', r = some d' → Tally (fun o => E o ∨ o = oid ∧ ∃ s ∈ ss, Same name s)
        (fun o => P o ∨ o = oid ∧ ∃ s ∈ ss, Starts name s) d') ∧
      (r = none → (∃ s ∈ ss, Same name s) ∧ ∃ o, E o ∧ o ≠ oid) := by
  induction ss generalizing E P d with
  | nil =>
    refine ⟨some d, rfl, ?_, fun hn => absurd hn (Option.some_ne_none d)⟩
    intro d' hd'
    simpa using Option.some.inj hd' ▸ h
  | cons s ss ih =>
    obtain ⟨r, hr, hsome, hnone⟩ := tally_step name h ho s
    cases r with
    | none =>
      obtain ⟨hs, ho⟩ := hnone rfl
      refine ⟨none, ?_, fun d' hd' => absurd hd'.symm (Option.some_ne_none d'),
        fun _ => ⟨⟨s, List.mem_cons_self, hs⟩, ho⟩⟩
      rw [matchNames, hr]
      rfl
    | some d1 =>
      obtain ⟨r, hr', hsome', hnone'⟩ := ih (hsome d1 rfl)
      refine ⟨r, ?_, ?_, ?_⟩
      · rw [matchNames, hr]
        exact hr'
      · intro d' hd'
        have := hsome' d' hd'
        simp only [List.mem_cons, exists_eq_or_imp]
        convert this using 2 <;> rw [or_assoc, ← and_or_left]
      · intro hn
        obtain ⟨⟨s', hs', hsame⟩, o, hE | ⟨rfl, -⟩, hne⟩ := hnone' hn
        · exact ⟨⟨s', List.mem_cons_of_mem s hs', hsame⟩, o, hE, hne⟩
        · exact absurd rfl hne

section Objects
variable (db : Db)

def HasSame (o : ℤ) : Prop := ∃ ns, db.names o = .ok ns ∧ ∃ s ∈ ns, Same name s
def HasStart (o : ℤ) : Prop := ∃ ns, db.names o = .ok ns ∧ ∃ s ∈ ns, Starts name s

/-- Two different objects with a property. -/
def Two (E : ℤ → Prop) : Prop := ∃ o o', E o ∧ E o' ∧ o ≠ o'

theorem Two.mono {E E' : ℤ → Prop} (h : Two E) (hE : ∀ o, E o → E' o) : Two E' := by
  obtain ⟨o, o', ho, ho', hne⟩ := h
  exact ⟨o, o', hE o ho, hE o' ho', hne⟩

theorem matchAll_tally {E P : ℤ → Prop} {d : MatchData} (h : Tally E P d) {cs : List ℤ}
    (hcs : ∀ c ∈ cs, 0 ≤ c) {r : Option MatchData} (hr : db.matchAll name d cs = .ok r) :
    (∀ d', r = some d' → Tally (fun o => E o ∨ o ∈ cs ∧ HasSame name db o)
      (fun o => P o ∨ o ∈ cs ∧ HasStart name db o) d') ∧
    (r = none → Two fun o => E o ∨ o ∈ cs ∧ HasSame name db o) := by
  induction cs generalizing E P d with
  | nil =>
    obtain rfl := Except.ok.inj hr
    refine ⟨fun d' hd' => ?_, fun hn => absurd hn (Option.some_ne_none d)⟩
    simpa using Option.some.inj hd' ▸ h
  | cons c cs ih =>
    rw [Db.matchAll] at hr
    obtain ⟨r1, hr1, hr⟩ := bind_ok.mp hr
    obtain ⟨ns, hns, hr1⟩ := bind_ok.mp hr1
    obtain ⟨r1', hr1', hsome, hnone⟩ :=
      matchNames_tally name h (hcs c List.mem_cons_self) ns
    obtain rfl := Except.ok.inj (hr1.symm.trans hr1')
    have hE : ∀ (Q : CStr → Prop) (o : ℤ), (o = c ∧ ∃ s ∈ ns, Q s) ↔
        o = c ∧ ∃ ns, db.names o = .ok ns ∧ ∃ s ∈ ns, Q s := by
      intro Q o
      apply and_congr_right
      rintro rfl
      rw [hns]
      constructor
      · exact fun hs => ⟨ns, rfl, hs⟩
      · rintro ⟨ns', hns', hs⟩
        exact Except.ok.inj hns' ▸ hs
    cases r1 with
    | none =>
      obtain rfl := pure_ok.mp hr
      refine ⟨fun d' hd' => absurd hd'.symm (Option.some_ne_none d'), fun _ => ?_⟩
      obtain ⟨hs, o, hEo, hne⟩ := hnone rfl
      exact ⟨o, c, .inl hEo, .inr ⟨List.mem_cons_self, ns, hns, hs⟩, hne⟩
    | some d1 =>
      have h1 := hsome d1 rfl
      simp only [hE] at h1
      obtain ⟨hsome', hnone'⟩ := ih h1 (fun c' hc' => hcs c' (List.mem_cons_of_mem c hc')) hr
      have hmem : ∀ (A Q : ℤ → Prop) (o : ℤ),
          ((A o ∨ o = c ∧ Q o) ∨ o ∈ cs ∧ Q o) ↔ A o ∨ o ∈ c::cs ∧ Q o := by
        intro A Q o
        rw [or_assoc, ← or_and_right, List.mem_cons]
      constructor
      · intro d' hd'
        have := hsome' d' hd'
        exact (funext fun o => propext (hmem E (HasSame name db) o)) ▸
          (funext fun o => propext (hmem P (HasStart name db) o)) ▸ this
      · intro hn
        exact (hnone' hn).mono fun o => (hmem E (HasSame name db) o).mp

/-- An object among the contents of the player or of its location. -/
def Near (player o : ℤ) : Prop :=
  Forest.Above nothing db.place o player ∨
    ∃ loc, Forest.Above nothing db.place player loc ∧ Forest.Above nothing db.place o loc

section Places
variable {db} (h : db.Forested)
include h

open Forest

theorem inside_nonneg {o p : ℤ} (ho : Above nothing db.place o p) : 0 ≤ o := by
  have := (h.place.above_isSome ho).1
  rw [Db.place_isSome] at this
  exact (db.bounded o this).1

theorem matchPlaces_tally {E P : ℤ → Prop} {d : MatchData} (ht : Tally E P d) {ps : List ℤ}
    {r : Option MatchData} (hr : db.matchPlaces name d ps = .ok r) :
    (∀ d', r = some d' → Tally
      (fun o => E o ∨ (∃ p ∈ ps, Above nothing db.place o p) ∧ HasSame name db o)
      (fun o => P o ∨ (∃ p ∈ ps, Above nothing db.place o p) ∧ HasStart name db o) d') ∧
    (r = none → Two fun o =>
      E o ∨ (∃ p ∈ ps, Above nothing db.place o p) ∧ HasSame name db o) := by
  induction ps generalizing E P d with
  | nil =>
    obtain rfl := Except.ok.inj hr
    refine ⟨fun d' hd' => ?_, fun hn => absurd hn (Option.some_ne_none d)⟩
    simpa using Option.some.inj hd' ▸ ht
  | cons p ps ih =>
    have hmem : ∀ (A Q : ℤ → Prop) (o : ℤ),
        ((A o ∨ Above nothing db.place o p ∧ Q o) ∨
          (∃ p ∈ ps, Above nothing db.place o p) ∧ Q o) ↔
        A o ∨ (∃ q ∈ p::ps, Above nothing db.place o q) ∧ Q o := by
      intro A Q o
      rw [or_assoc, ← or_and_right]
      simp only [List.mem_cons, exists_eq_or_imp]
    have step : ∀ {d1 : MatchData}, Tally (fun o => E o ∨ Above nothing db.place o p ∧
        HasSame name db o) (fun o => P o ∨ Above nothing db.place o p ∧ HasStart name db o) d1 →
        db.matchPlaces name d1 ps = .ok r →
        (∀ d', r = some d' → Tally
          (fun o => E o ∨ (∃ q ∈ p::ps, Above nothing db.place o q) ∧ HasSame name db o)
          (fun o => P o ∨ (∃ q ∈ p::ps, Above nothing db.place o q) ∧ HasStart name db o) d') ∧
        (r = none → Two fun o =>
          E o ∨ (∃ q ∈ p::ps, Above nothing db.place o q) ∧ HasSame name db o) := by
      intro d1 h1 hr1
      obtain ⟨hsome, hnone⟩ := ih h1 hr1
      constructor
      · intro d' hd'
        exact (funext fun o => propext (hmem E (HasSame name db) o)) ▸
          (funext fun o => propext (hmem P (HasStart name db) o)) ▸ hsome d' hd'
      · intro hn
        exact (hnone hn).mono fun o => (hmem E (HasSame name db) o).mp
    rw [Db.matchPlaces] at hr
    by_cases hv : db.valid p = true
    · rw [if_pos hv] at hr
      rw [Db.valid, Db.find_eq] at hv
      obtain ⟨cs, hcs, -, hmc, -⟩ := Db.contents_eq h.place hv
      obtain ⟨cs', hcs', hr⟩ := bind_ok.mp hr
      obtain rfl := Except.ok.inj (hcs'.symm.trans hcs)
      obtain ⟨r1, hr1, hr⟩ := bind_ok.mp hr
      obtain ⟨hsome, hnone⟩ := matchAll_tally name db ht
        (fun c hc => inside_nonneg h ((hmc c).mp hc)) hr1
      simp only [hmc] at hsome hnone
      cases r1 with
      | none =>
        obtain rfl := pure_ok.mp hr
        refine ⟨fun d' hd' => absurd hd'.symm (Option.some_ne_none d'), fun _ => ?_⟩
        exact (hnone rfl).mono fun o => Or.imp_right fun ho =>
          ⟨⟨p, List.mem_cons_self, ho.1⟩, ho.2⟩
      | some d1 => exact step (hsome d1 rfl) hr
    · rw [if_neg hv] at hr
      have hempty : ∀ o, ¬Above nothing db.place o p := by
        intro o ho
        apply hv
        rw [Db.valid, Db.find_eq, ← Db.place_isSome]
        exact (h.place.above_isSome ho).2
      refine step ?_ hr
      simpa only [hempty, false_and, or_false] using ht

theorem matchContents_chosen {player r : ℤ} (hv : db.valid player = true)
    (hr : db.matchContents player name = .ok r) :
    Chosen (fun o => Near db player o ∧ HasSame name db o)
      (fun o => Near db player o ∧ HasStart name db o) r := by
  rw [Db.matchContents, if_pos hv] at hr
  obtain ⟨po, hpo, hr⟩ := bind_ok.mp hr
  obtain ⟨m, hm, hr⟩ := bind_ok.mp hr
  have hp : db.objects player = some po := by
    rw [Db.object, Db.find_eq] at hpo
    cases ho : db.objects player with
    | none => rw [ho] at hpo; cases hpo
    | some o => rw [ho] at hpo; exact congrArg some (Except.ok.inj hpo)
  have hnear : ∀ o, (∃ p ∈ [player, po.place.up], Above nothing db.place o p) ↔ Near db player o := by
    intro o
    simp only [List.mem_cons, List.not_mem_nil, or_false, exists_eq_or_imp, exists_eq_left]
    apply or_congr_right
    constructor
    · intro ho
      exact ⟨po.place.up, ⟨po.place, Db.place_some hp, rfl, ho.choose_spec.2.2⟩, ho⟩
    · rintro ⟨loc, ⟨l, hl, rfl, -⟩, ho⟩
      rw [Db.place_some hp] at hl
      exact Option.some.inj hl ▸ ho
  obtain ⟨hsome, hnone⟩ := matchPlaces_tally name h .none hm
  simp only [false_or, hnear] at hsome hnone
  cases m with
  | none =>
    obtain rfl := pure_ok.mp hr
    obtain ⟨a, b, ha, hb, hne⟩ := hnone rfl
    constructor
    · intro o _ hs
      exact absurd ((hs a ha).trans (hs b hb).symm) hne
    · exact fun _ _ _ _ _ => rfl
    · exact fun hn => absurd ha (hn a)
    · exact fun hn => absurd ha (hn a)
    · exact fun hn => absurd ha (hn a)
  | some d =>
    obtain rfl := pure_ok.mp hr
    exact (hsome d rfl).chosen

end Places

end Objects

/-- A name that is neither `me` nor `here` nor begins as a number does. -/
structure Plain : Prop where
  notEmpty : name.str ≠ []
  notNumber : name.str.head? ≠ some 35
  notMe : name.fold ≠ ascii "me"
  notHere : name.fold ≠ ascii "here"

theorem matchObject_plain (hn : Plain name) {db : Db} {player : ℤ} (hv : db.valid player = true) :
    db.matchObject player name = db.matchContents player name := by
  have hme := mystrcasecmp_eq_zero name.noNul (t := ascii "me") (by decide)
  have hhere := mystrcasecmp_eq_zero name.noNul (t := ascii "here") (by decide)
  rw [Db.matchObject]
  cases hs : name.str with
  | nil => exact absurd hs hn.notEmpty
  | cons c s =>
    have hc : c ≠ 35 := fun e => hn.notNumber (by rw [hs, e]; rfl)
    rw [hs] at hme hhere
    have hf : fold (c::s) = name.fold := by rw [CStr.fold, hs]
    have hnm : mystrcasecmp (c::s) (ascii "me") ≠ 0 := fun e => hn.notMe (hf ▸ hme.mp e)
    have hnh : mystrcasecmp (c::s) (ascii "here") ≠ 0 := fun e => hn.notHere (hf ▸ hhere.mp e)
    simp only [if_neg hc, if_neg hnm, if_neg hnh, hv, Bool.not_true, Bool.false_eq_true, if_false]

/-- A name that begins with `#` names the object of that number or nothing. -/
theorem matchObject_hash {s : Str} (hs : name.str = 35::s) {db : Db} {player : ℤ}
    (hno : (DbIo.strtoll s).2 ≠ [] ∨ db.valid (DbIo.strtoll s).1.toInt = false) :
    db.matchObject player name = .ok failedMatch := by
  rw [Db.matchObject, hs]
  dsimp only
  rw [if_pos rfl, if_pos (by simpa using hno)]

section Total
variable {db : Db} (h : db.Sound)
include h

theorem aliases_ok (oid : ℤ) : ∃ vs, db.aliases oid = .ok vs := by
  obtain ⟨found, hf, -⟩ := Db.findProperty_eq h.kin oid aliasesName
  rw [Db.aliases, hf]
  cases found with
  | none => exact ⟨[], rfl⟩
  | some handle =>
    cases handle with
    | builtIn b => exact ⟨[], rfl⟩
    | slot definer n =>
      obtain ⟨hn, -⟩ := Db.findProperty_slot h hf
      obtain ⟨chain, hc, hl⟩ := Db.ancestors_eq h.kin oid
      obtain ⟨v, hv, -⟩ := Db.slotValue_ok h hl hn
      simp only [bind, Except.bind, hc, hv]
      cases v with
      | list vs => exact ⟨vs, rfl⟩
      | _ => exact ⟨[], rfl⟩

theorem names_ok {oid : ℤ} (ho : (db.objects oid).isSome = true) : ∃ ns, db.names oid = .ok ns := by
  obtain ⟨o, ho⟩ := Option.isSome_iff_exists.mp ho
  obtain ⟨vs, hvs⟩ := aliases_ok h oid
  refine ⟨o.name::vs.filterMap strName, ?_⟩
  rw [Db.names, Db.object_ok ho]
  simp only [bind, Except.bind, hvs]
  rfl

omit h in
theorem matchNames_ok (oid : ℤ) (d : MatchData) (ss : List CStr) :
    ∃ r, matchNames name oid d ss = .ok r := by
  induction ss generalizing d with
  | nil => exact ⟨some d, rfl⟩
  | cons s ss ih =>
    rw [matchNames, matchName_eq]
    simp only [bind, Except.bind]
    split
    · exact ih _
    · exact ⟨none, rfl⟩

theorem matchAll_ok (d : MatchData) {cs : List ℤ} (hcs : ∀ c ∈ cs, (db.objects c).isSome = true) :
    ∃ r, db.matchAll name d cs = .ok r := by
  induction cs generalizing d with
  | nil => exact ⟨some d, rfl⟩
  | cons c cs ih =>
    obtain ⟨ns, hns⟩ := names_ok h (hcs c List.mem_cons_self)
    obtain ⟨r, hr⟩ := matchNames_ok name c d ns
    rw [Db.matchAll, Db.matchProc, hns]
    simp only [bind, Except.bind, hr]
    cases r with
    | none => exact ⟨none, rfl⟩
    | some d1 => exact ih d1 fun c' hc' => hcs c' (List.mem_cons_of_mem c hc')

theorem matchPlaces_ok (d : MatchData) (ps : List ℤ) : ∃ r, db.matchPlaces name d ps = .ok r := by
  induction ps generalizing d with
  | nil => exact ⟨some d, rfl⟩
  | cons p ps ih =>
    rw [Db.matchPlaces]
    by_cases hv : db.valid p = true
    · rw [if_pos hv]
      rw [Db.valid, Db.find_eq] at hv
      obtain ⟨cs, hcs, -, hmc, -⟩ := Db.contents_eq h.place hv
      obtain ⟨r, hr⟩ := matchAll_ok name h d fun c hc => by
        have := (h.place.above_isSome ((hmc c).mp hc)).1
        rwa [Db.place_isSome] at this
      simp only [bind, Except.bind, hcs, hr]
      cases r with
      | none => exact ⟨none, rfl⟩
      | some d1 => exact ih d1
    · rw [if_neg hv]
      exact ih d

theorem matchContents_ok (player : ℤ) : ∃ r, db.matchContents player name = .ok r := by
  rw [Db.matchContents]
  by_cases hv : db.valid player = true
  · rw [if_pos hv]
    rw [Db.valid, Db.find_eq] at hv
    obtain ⟨o, ho⟩ := Option.isSome_iff_exists.mp hv
    obtain ⟨r, hr⟩ := matchPlaces_ok name h ⟨nothing, failedMatch⟩ [player, o.place.up]
    rw [Db.object_ok ho]
    simp only [bind, Except.bind, hr]
    cases r with
    | none => exact ⟨ambiguous, rfl⟩
    | some d => exact ⟨_, rfl⟩
  · rw [if_neg hv]
    exact ⟨failedMatch, rfl⟩

end Total

/-- The same objects in the same places, with their contents and their names in any order. -/
structure Reordered (db db' : Db) : Prop where
  valid : ∀ o, db'.valid o = db.valid o
  placed : ∀ o p, Forest.Above nothing db'.place o p ↔ Forest.Above nothing db.place o p
  names : ∀ o ns', db'.names o = .ok ns' → ∃ ns, db.names o = .ok ns ∧ ns'.Perm ns
  names' : ∀ o ns, db.names o = .ok ns → ∃ ns', db'.names o = .ok ns' ∧ ns'.Perm ns

theorem Reordered.near {db db' : Db} (hr : Reordered db db') (player o : ℤ) :
    Near db' player o ↔ Near db player o := by
  simp only [Near, hr.placed]

theorem Reordered.has {db db' : Db} (hr : Reordered db db') (Q : CStr → Prop) (o : ℤ) :
    (∃ ns, db'.names o = .ok ns ∧ ∃ s ∈ ns, Q s) ↔ ∃ ns, db.names o = .ok ns ∧ ∃ s ∈ ns, Q s := by
  constructor
  · rintro ⟨ns', hns', s, hs, hq⟩
    obtain ⟨ns, hns, hp⟩ := hr.names o ns' hns'
    exact ⟨ns, hns, s, hp.mem_iff.mp hs, hq⟩
  · rintro ⟨ns, hns, s, hs, hq⟩
    obtain ⟨ns', hns', hp⟩ := hr.names' o ns hns
    exact ⟨ns', hns', s, hp.mem_iff.mpr hs, hq⟩

/-- A plain name is matched by all the objects near a player, whatever their order. -/
theorem matchObject_right {db : Db} (h : db.Forested) {player : ℤ} (hv : db.valid player = true) :
    (Plain name →
      (∀ r, db.matchObject player name = .ok r →
        Chosen (fun o => Near db player o ∧ HasSame name db o)
          (fun o => Near db player o ∧ HasStart name db o) r) ∧
      (db.Sound → ∃ r, db.matchObject player name = .ok r) ∧
      ∀ db', db'.Forested → Reordered db db' → ∀ r r', db.matchObject player name = .ok r →
        db'.matchObject player name = .ok r' → r' = r) ∧
    ∀ s, name.str = 35::s → (DbIo.strtoll s).2 ≠ [] ∨ db.valid (DbIo.strtoll s).1.toInt = false →
      db.matchObject player name = .ok failedMatch := by
  refine ⟨fun hn => ⟨fun r hr => ?_, fun hs => ?_, fun db' h' hre r r' hr hr' => ?_⟩,
    fun s hs hno => matchObject_hash name hs hno⟩
  · rw [matchObject_plain name hn hv] at hr
    exact matchContents_chosen name h hv hr
  · rw [matchObject_plain name hn hv]
    exact matchContents_ok name hs player
  · have hv' : db'.valid player = true := (hre.valid player).trans hv
    rw [matchObject_plain name hn hv] at hr
    rw [matchObject_plain name hn hv'] at hr'
    have hc' := matchContents_chosen name h' hv' hr'
    have hE : (fun o => Near db' player o ∧ HasSame name db' o) =
        fun o => Near db player o ∧ HasSame name db o := funext fun o =>
      propext (and_congr (hre.near player o) (hre.has (Same name) o))
    have hP : (fun o => Near db' player o ∧ HasStart name db' o) =
        fun o => Near db player o ∧ HasStart name db o := funext fun o =>
      propext (and_congr (hre.near player o) (hre.has (Starts name) o))
    rw [hE, hP] at hc'
    exact hc'.unique (matchContents_chosen name h hv hr)

end Run

/-- Object #0 with one thing in it, which has a name. -/
def pocket (name : CStr) : Db where
  objects i :=
    if i = 0 then
      some ⟨Db.noName, nothing, Db.noFlags, Db.orphan, ⟨nothing, 1, nothing⟩, [], [], [], none⟩
    else if i = 1 then
      some ⟨name, nothing, Db.noFlags, Db.orphan, ⟨0, nothing, nothing⟩, [], [], [], none⟩
    else none
  numObjects := 2
  allUsers := []
  nextUid := 0
  wpds _ := []
  nextWpd := 0
  vcTable := none
  bounded i h := by
    split at h
    · omega
    · split at h
      · omega
      · cases h

section Pocket
variable (name : CStr)

open Forest

theorem above_owned {h : Heap ℤ} {c i : ℤ} (hne : i ≠ nothing) :
    Above nothing h c i ↔ (h c).isSome = true ∧ upOf nothing h c = i := by
  constructor
  · rintro ⟨l, hl, hu, -⟩
    exact ⟨by simp [hl], (upOf_eq nothing hl).trans hu⟩
  · rintro ⟨hs, hu⟩
    obtain ⟨l, hl⟩ := Option.isSome_iff_exists.mp hs
    exact ⟨l, hl, (upOf_eq nothing hl).symm.trans hu, hne⟩

theorem pocket_cases {i : ℤ} {l : Links ℤ} (h : (pocket name).place i = some l) :
    (i = 0 ∧ l = ⟨nothing, 1, nothing⟩) ∨ (i = 1 ∧ l = ⟨0, nothing, nothing⟩) := by
  rw [Db.place, pocket] at h
  dsimp only at h
  split at h
  · next h0 => exact .inl ⟨h0, (Option.some.inj h).symm⟩
  · split at h
    · next h1 => exact .inr ⟨h1, (Option.some.inj h).symm⟩
    · cases h

theorem pocket_above (i j : ℤ) : Above nothing (pocket name).place i j ↔ i = 1 ∧ j = 0 := by
  constructor
  · rintro ⟨l, hl, rfl, hne⟩
    rcases pocket_cases name hl with ⟨-, rfl⟩ | ⟨hi, rfl⟩
    · exact absurd rfl hne
    · exact ⟨hi, rfl⟩
  · rintro ⟨rfl, rfl⟩
    exact ⟨_, rfl, rfl, by decide⟩

theorem pocket_forested : (pocket name).Forested := by
  constructor
  · have hk : (pocket name).kin = Db.empty.createObject.createObject.kin := by
      funext i
      simp only [Db.kin, pocket, Db.createObject, Db.empty]
      by_cases h0 : i = 0
      · simp [h0]
      · by_cases h1 : i = 1
        · simp [h1]
        · simp [h0, h1]
    rw [hk]
    exact (Db.createObject_sound (Db.createObject_sound Db.empty_sound)).kin
  · refine ⟨⟨rfl, fun i l hi => ?_⟩, fun i l hi => ?_, fun i l hi hu => ?_, ⟨Int.toNat, ?_⟩⟩
    · rcases pocket_cases name hi with ⟨rfl, rfl⟩ | ⟨rfl, rfl⟩
      · refine ⟨[1], .cons rfl (by decide) .nil, List.nodup_singleton 1, fun c => ?_⟩
        rw [← above_owned (by decide), pocket_above, List.mem_singleton]
        exact (and_iff_left rfl).symm
      · refine ⟨[], .nil, List.nodup_nil, fun c => ?_⟩
        rw [← above_owned (by decide), pocket_above]
        simp
    · rcases pocket_cases name hi with ⟨-, rfl⟩ | ⟨-, rfl⟩
      · exact .inl rfl
      · exact .inr rfl
    · rcases pocket_cases name hi with ⟨-, rfl⟩ | ⟨-, rfl⟩
      · rfl
      · rfl
    · intro i j hij
      obtain ⟨rfl, rfl⟩ := (pocket_above name i j).mp hij
      decide

theorem pocket_names : (pocket name).names 1 = .ok [name] := rfl

end Pocket

def lamp : CStr := ⟨ascii "Lamp", by decide⟩
def lampshade : CStr := ⟨ascii "Lampshade", by decide⟩

def thing (name : CStr) (place : Forest.Links ℤ) : Object :=
  ⟨name, nothing, Db.noFlags, Db.orphan, place, [], [], [], none⟩

def chamberObjects (i : ℤ) : Option Object :=
  if i = 0 then some (thing Db.noName ⟨nothing, 1, nothing⟩)
  else if i = 1 then some (thing Db.noName ⟨0, 2, 4⟩)
  else if i = 2 then some (thing lamp ⟨1, nothing, 3⟩)
  else if i = 3 then some (thing lampshade ⟨1, nothing, nothing⟩)
  else if i = 4 then some (thing ⟨ascii "lamp oil", by decide⟩ ⟨0, nothing, 5⟩)
  else if i = 5 then some (thing ⟨ascii "LAMPSHADE", by decide⟩ ⟨0, nothing, nothing⟩)
  else none

theorem chamberObjects_nodes {i : ℤ} (hi : (chamberObjects i).isSome = true) :
    i ∈ [0, 1, 2, 3, 4, 5] := by
  unfold chamberObjects at hi
  split_ifs at hi <;> simp_all

theorem chamberObjects_bounded (i : ℤ) (hi : (chamberObjects i).isSome = true) :
    0 ≤ i ∧ i < (6 : ℕ) := by
  have hmem := chamberObjects_nodes hi
  simp only [List.mem_cons, List.not_mem_nil, or_false] at hmem
  omega

/-- The player #1 with a lamp and a lampshade, in a room with lamp oil and a lampshade. -/
def chamber : Db where
  objects := chamberObjects
  numObjects := 6
  allUsers := []
  nextUid := 0
  wpds _ := []
  nextWpd := 0
  vcTable := none
  bounded := chamberObjects_bounded

theorem chamber_forested : chamber.Forested := by
  constructor
  · refine .ofNodes [0, 1, 2, 3, 4, 5] (fun i hi => chamberObjects_nodes (by rwa [Db.kin_isSome] at hi))
      (fun _ => []) (fun _ => 0) rfl ?_ ?_
    · intro i hi l hl
      obtain rfl|rfl|rfl|rfl|rfl|rfl :
        i = 0 ∨ i = 1 ∨ i = 2 ∨ i = 3 ∨ i = 4 ∨ i = 5 := by simpa using hi
      all_goals
        obtain rfl := Option.some.inj hl
        exact ⟨.nil, by decide, by decide, by decide⟩
    · intro i hi l hl
      obtain rfl|rfl|rfl|rfl|rfl|rfl :
        i = 0 ∨ i = 1 ∨ i = 2 ∨ i = 3 ∨ i = 4 ∨ i = 5 := by simpa using hi
      all_goals
        obtain rfl := Option.some.inj hl
        decide
  · refine .ofNodes [0, 1, 2, 3, 4, 5] (fun i hi => chamberObjects_nodes (by rwa [Db.place_isSome] at hi))
      (fun i => if i = 0 then [1, 4, 5] else if i = 1 then [2, 3] else [])
      (fun i => if i = 0 then 0 else if i = 1 then 1 else 2) rfl ?_ ?_
    · intro i hi l hl
      obtain rfl|rfl|rfl|rfl|rfl|rfl :
        i = 0 ∨ i = 1 ∨ i = 2 ∨ i = 3 ∨ i = 4 ∨ i = 5 := by simpa using hi
      all_goals obtain rfl := Option.some.inj hl
      · exact ⟨.cons rfl (by decide) (.cons rfl (by decide) (.cons rfl (by decide) .nil)),
          by decide, by decide, by decide⟩
      · exact ⟨.cons rfl (by decide) (.cons rfl (by decide) .nil), by decide, by decide, by decide⟩
      · exact ⟨.nil, by decide, by decide, by decide⟩
      · exact ⟨.nil, by decide, by decide, by decide⟩
      · exact ⟨.nil, by decide, by decide, by decide⟩
      · exact ⟨.nil, by decide, by decide, by decide⟩
    · intro i hi l hl
      obtain rfl|rfl|rfl|rfl|rfl|rfl :
        i = 0 ∨ i = 1 ∨ i = 2 ∨ i = 3 ∨ i = 4 ∨ i = 5 := by simpa using hi
      all_goals
        obtain rfl := Option.some.inj hl
        decide

theorem lamp_plain : Plain lamp := ⟨by decide, by decide, by decide, by decide⟩
theorem lampshade_plain : Plain lampshade := ⟨by decide, by decide, by decide, by decide⟩

/-- Of the lamp, the lampshades and the lamp oil, `Lamp` names the first; `Lampshade` names the one
that the player has and the one in the room. -/
theorem lamp_matched :
    Chosen (fun o => Near chamber 1 o ∧ HasSame lamp chamber o)
      (fun o => Near chamber 1 o ∧ HasStart lamp chamber o) 2 ∧
    Chosen (fun o => Near chamber 1 o ∧ HasSame lampshade chamber o)
      (fun o => Near chamber 1 o ∧ HasStart lampshade chamber o) ambiguous :=
  ⟨((matchObject_right lamp chamber_forested
      (show chamber.valid 1 = true from rfl)).1 lamp_plain).1 2 rfl,
    ((matchObject_right lampshade chamber_forested
      (show chamber.valid 1 = true from rfl)).1 lampshade_plain).1 ambiguous rfl⟩

def hashName : CStr := ⟨ascii "#lamp", by decide⟩

/-- A thing whose name begins with `#` is not found, although there is no other. -/
theorem hash_name_missed : (pocket hashName).Forested ∧ (pocket hashName).valid 0 = true ∧
    hashName.str ≠ [] ∧ hashName.fold ≠ ascii "me" ∧ hashName.fold ≠ ascii "here" ∧
    (DbIo.strtoll hashName.str.tail).2 ≠ [] ∧ (pocket hashName).matchObject 0 hashName = .ok failedMatch ∧
    ¬Chosen (fun o => Near (pocket hashName) 0 o ∧ HasSame hashName (pocket hashName) o)
      (fun o => Near (pocket hashName) 0 o ∧ HasStart hashName (pocket hashName) o) failedMatch := by
  refine ⟨pocket_forested hashName, rfl, by decide, by decide, by decide, by decide, by decide, ?_⟩
  intro h
  have hone : failedMatch = 1 := by
    apply h.only 1
    · refine ⟨.inl ((pocket_above hashName 1 0).mpr ⟨rfl, rfl⟩), [hashName], ?_, hashName, ?_, rfl⟩
      · exact pocket_names hashName
      · exact List.mem_singleton_self hashName
    · rintro o ⟨ho | ⟨loc, hl, -⟩, -⟩
      · exact ((pocket_above hashName o 0).mp ho).1
      · exact absurd ((pocket_above hashName 0 loc).mp hl).1 (by decide)
  exact absurd hone (by decide)

end LambdaMoo.Database
