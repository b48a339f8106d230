import LambdaMoo.Words
import LambdaMoo.Names
import LambdaMoo.Builtins
import Mathlib.Data.List.Find

/-!
# Prepositions

`db_find_prep` looks for a phrase at each position of a word list and takes the
first one of the table that matches there. That is the longest where each
preposition lists its longer phrases before the shorter ones, as all but the
last do: `off` stands before `off of`.
-/

set_option autoImplicit false

namespace LambdaMoo.Database
open LambdaMoo.Words

def prepList : List Str := ["with/using", "at/to", "in front of", "in/inside/into",
  "on top of/on/onto/upon", "out of/from inside/from", "over", "through",
  "under/underneath/beneath", "behind", "beside", "for/about", "is", "as", "off/off of"].map ascii

/-- The loop over the phrases of an entry of `prep_list`. -/
def splitAliases : ℕ → Str → List Str
  | 0, _ => []
  | _+1, [] => []
  | fuel+1, c::p =>
    let p := if c = 47 then p else c::p
    p.takeWhile (· ≠ 47)::splitAliases fuel (p.dropWhile (· ≠ 47))

def buildPrepTable : Result (List (List (List Str))) :=
  prepList.mapM fun p => (splitAliases p.length p).mapM fun cprep => do
    return (← parseIntoWords cprep).argv

def prepTable : List (List (List Str)) :=
  ([[["with"], ["using"]], [["at"], ["to"]], [["in", "front", "of"]], [["in"], ["inside"], ["into"]],
    [["on", "top", "of"], ["on"], ["onto"], ["upon"]],
    [["out", "of"], ["from", "inside"], ["from"]], [["over"]], [["through"]],
    [["under"], ["underneath"], ["beneath"]], [["behind"]], [["beside"]], [["for"], ["about"]],
    [["is"]], [["as"]], [["off"], ["off", "of"]]] : List (List (List String))).map
    fun row => row.map fun words => words.map ascii

theorem prepTable_built : buildPrepTable = .ok prepTable := by decide +kernel

/-- The loop over the words of a phrase: whether it comes to their end. -/
def wordsMatch : List Str → List Str → Bool
  | a::as, w::ws => if mystrcasecmp a w ≠ 0 then false else wordsMatch as ws
  | _, [] => true
  | [], _::_ => false

/-- The phrase against the words from position `i` on. -/
def aliasMatches (exact : Bool) (words phrase : List Str) : Bool :=
  decide (phrase.length ≤ words.length) && wordsMatch words phrase &&
    (!exact || decide (phrase.length = words.length))

/-- The loop over the table, from preposition `j` on. -/
def tryTable (exact : Bool) (words : List Str) : ℕ → List (List (List Str)) → Option (ℕ×ℕ)
  | _, [] => none
  | j, row::rows =>
    match row.find? (aliasMatches exact words) with
    | some phrase => some (j, phrase.length)
    | none => tryTable exact words (j+1) rows

structure PrepFound where
  prep : ℕ
  first : ℕ
  last : ℕ
  deriving DecidableEq, Repr

/-- `db_find_prep` with places for `first` and `last`; `none` is `PREP_NONE`. -/
def searchPrep : ℕ → List Str → Option PrepFound
  | _, [] => none
  | i, a::as =>
    match tryTable false (a::as) 0 prepTable with
    | some (j, n) => some ⟨j, i, i+n-1⟩
    | none => searchPrep (i+1) as

def dbFindPrep (argv : List Str) : Option PrepFound := searchPrep 0 argv

/-- `db_find_prep` without them, which looks at the first position only. -/
def exactPrep (argv : List Str) : Option ℕ :=
  if argv = [] then none else (tryTable true argv 0 prepTable).map Prod.fst

/-- The phrases in the order of the table, with the numbers of their prepositions. -/
def numbered : ℕ → List (List (List Str)) → List (ℕ×List Str)
  | _, [] => []
  | j, row::rows => row.map (j, ·) ++ numbered (j+1) rows

def phrases : List (ℕ×List Str) := numbered 0 prepTable

theorem tryTable_eq (exact : Bool) (words : List Str) (j : ℕ) (rows : List (List (List Str))) :
    tryTable exact words j rows = ((numbered j rows).find? fun e => aliasMatches exact words e.2).map
      fun e => (e.1, e.2.length) := by
  induction rows generalizing j with
  | nil => rfl
  | cons row rows ih =>
    rw [tryTable, numbered, List.find?_append, List.find?_map, ih]
    change (match row.find? (aliasMatches exact words) with | some p => _ | none => _) =
      Option.map _ (((row.find? (aliasMatches exact words)).map _).or _)
    cases row.find? (aliasMatches exact words) <;> rfl

theorem wordsMatch_iff {words phrase : List Str} (hw : ∀ a ∈ words, 0 ∉ a)
    (hp : ∀ a ∈ phrase, 0 ∉ a) :
    wordsMatch words phrase = true ↔ phrase.map fold <+: words.map fold := by
  induction phrase generalizing words with
  | nil => cases words <;> simp [wordsMatch]
  | cons w ws ih =>
    cases words with
    | nil => simp [wordsMatch]
    | cons a as =>
      have ih : wordsMatch as ws = true ↔ ws.map fold <+: as.map fold :=
        ih (fun b hb => hw b (List.mem_cons_of_mem a hb)) (fun b hb => hp b (List.mem_cons_of_mem w hb))
      rw [wordsMatch, List.map_cons, List.map_cons, List.cons_prefix_cons, ← ih,
        eq_comm (a := fold w),
        ← mystrcasecmp_eq_zero (hw a List.mem_cons_self) (hp w List.mem_cons_self)]
      by_cases h : mystrcasecmp a w = 0 <;> simp [h]

theorem phrases_lower : ∀ e ∈ phrases, e.2.map fold = e.2 ∧ (∀ a ∈ e.2, 0 ∉ a) ∧ e.2 ≠ [] := by
  decide +kernel

/-- Phrases of which one starts the other are in the order of the table, longer ones first,
with the one exception. -/
theorem phrases_ordered : phrases.Pairwise fun e d => e.2 <+: d.2 → d.2 <+: e.2 ∨
    (e, d) = ((14, [ascii "off"]), (14, [ascii "off", ascii "of"])) := by
  decide +kernel

section Argv
variable (argv : List CStr)

/-- A phrase of the table at a position of the word list, up to case. -/
def OccursAt (i : ℕ) (p : List Str) : Prop := p <+: (argv.map CStr.fold).drop i

def Listed (p : List Str) : Prop := ∃ j, (j, p) ∈ phrases

/-- The first phrase of the table at the beginning of words in lower case. -/
def firstPhrase (words : List Str) : Option (ℕ×List Str) :=
  phrases.find? fun e => decide (e.2 <+: words)

theorem fold_strs : (argv.map CStr.str).map fold = argv.map CStr.fold := List.map_map

theorem strs_noNul : ∀ a ∈ argv.map CStr.str, 0 ∉ a := by
  intro a ha
  obtain ⟨w, -, rfl⟩ := List.mem_map.mp ha
  exact w.noNul

theorem aliasMatches_search {e : ℕ×List Str} (he : e ∈ phrases) :
    aliasMatches false (argv.map CStr.str) e.2 = decide (e.2 <+: argv.map CStr.fold) := by
  obtain ⟨hl, h0, -⟩ := phrases_lower e he
  rw [Bool.eq_iff_iff, decide_eq_true_iff, aliasMatches, Bool.not_false, Bool.true_or, Bool.and_true,
    Bool.and_eq_true, decide_eq_true_iff, wordsMatch_iff (strs_noNul argv) h0, fold_strs, hl]
  apply and_iff_right_of_imp
  intro h
  have := h.length_le
  rwa [List.length_map] at this ⊢

theorem aliasMatches_exact {e : ℕ×List Str} (he : e ∈ phrases) :
    aliasMatches true (argv.map CStr.str) e.2 = decide (e.2 = argv.map CStr.fold) := by
  obtain ⟨hl, h0, -⟩ := phrases_lower e he
  rw [Bool.eq_iff_iff, decide_eq_true_iff, aliasMatches, Bool.not_true, Bool.false_or,
    Bool.and_eq_true, Bool.and_eq_true, decide_eq_true_iff, decide_eq_true_iff,
    wordsMatch_iff (strs_noNul argv) h0, fold_strs, hl, List.length_map]
  constructor
  · intro h
    exact h.1.2.eq_of_length (by rw [List.length_map, h.2])
  · intro h
    have hn : e.2.length = argv.length := by rw [h, List.length_map]
    exact ⟨⟨hn.le, h ▸ List.prefix_rfl⟩, hn⟩

theorem tryTable_search : tryTable false (argv.map CStr.str) 0 prepTable =
    (firstPhrase (argv.map CStr.fold)).map fun e => (e.1, e.2.length) := by
  rw [tryTable_eq, firstPhrase]
  exact congrArg _ (List.find?_congr fun e he => aliasMatches_search argv he)

theorem tryTable_exact : tryTable true (argv.map CStr.str) 0 prepTable =
    (phrases.find? fun e => decide (e.2 = argv.map CStr.fold)).map fun e => (e.1, e.2.length) := by
  rw [tryTable_eq]
  exact congrArg _ (List.find?_congr fun e he => aliasMatches_exact argv he)

theorem not_occursAt_nil (i : ℕ) {e : ℕ×List Str} (he : e ∈ phrases) : ¬OccursAt [] i e.2 := by
  rw [OccursAt, List.map_nil, List.drop_nil, List.prefix_nil]
  exact (phrases_lower e he).2.2

theorem firstPhrase_none {words : List Str} :
    firstPhrase words = none ↔ ∀ e ∈ phrases, ¬e.2 <+: words := by
  rw [firstPhrase, List.find?_eq_none]
  simp

theorem searchPrep_none (n : ℕ) : searchPrep n (argv.map CStr.str) = none ↔
    ∀ i, ∀ e ∈ phrases, ¬OccursAt argv i e.2 := by
  induction argv generalizing n with
  | nil => exact iff_of_true rfl fun i e he => not_occursAt_nil i he
  | cons w argv ih =>
    have ht := tryTable_search (w::argv)
    rw [List.map_cons] at ht
    rw [List.map_cons, searchPrep, ht]
    cases h : firstPhrase ((w::argv).map CStr.fold) with
    | none =>
      change searchPrep (n+1) (argv.map CStr.str) = none ↔ _
      rw [ih (n+1)]
      constructor
      · intro hi i
        cases i with
        | zero => exact firstPhrase_none.mp h
        | succ i => exact hi i
      · intro hi i
        exact hi (i+1)
    | some e =>
      apply iff_of_false
      · exact Option.some_ne_none _
      · intro hi
        have := firstPhrase_none.mpr (hi 0)
        rw [List.drop_zero, h] at this
        exact Option.some_ne_none _ this

/-- A search ends at the leftmost position at which a phrase occurs. -/
theorem searchPrep_some {n : ℕ} {f : PrepFound} (h : searchPrep n (argv.map CStr.str) = some f) :
    ∃ i e, f = ⟨e.1, n+i, n+i+e.2.length-1⟩ ∧ firstPhrase ((argv.map CStr.fold).drop i) = some e ∧
      ∀ k < i, ∀ d ∈ phrases, ¬OccursAt argv k d.2 := by
  induction argv generalizing n with
  | nil => exact absurd h.symm (Option.some_ne_none f)
  | cons w argv ih =>
    have ht := tryTable_search (w::argv)
    rw [List.map_cons] at ht
    rw [List.map_cons, searchPrep, ht] at h
    cases hp : firstPhrase ((w::argv).map CStr.fold) with
    | none =>
      rw [hp] at h
      obtain ⟨i, e, rfl, he, hk⟩ := ih (n := n+1) h
      refine ⟨i+1, e, by rw [Nat.add_right_comm, Nat.add_assoc], he, ?_⟩
      intro k hki
      cases k with
      | zero => exact firstPhrase_none.mp hp
      | succ k => exact hk k (Nat.lt_of_succ_lt_succ hki)
    | some e =>
      rw [hp] at h
      exact ⟨0, e, (Option.some.inj h).symm, hp, fun k hk => absurd hk (Nat.not_lt_zero k)⟩

/-- What a search for a preposition and a comparison with one are to give. -/
structure PrepRight : Prop where
  found : ∀ f, dbFindPrep (argv.map CStr.str) = some f → ∃ p, (f.prep, p) ∈ phrases ∧
    OccursAt argv f.first p ∧ f.last+1 = f.first+p.length ∧
    (∀ k < f.first, ∀ q, Listed q → ¬OccursAt argv k q) ∧
    ∀ q, Listed q → OccursAt argv f.first q → q.length ≤ p.length
  missing : dbFindPrep (argv.map CStr.str) = none ↔ ∀ i q, Listed q → ¬OccursAt argv i q
  exact : (∃ j, exactPrep (argv.map CStr.str) = some j) ↔ Listed (argv.map CStr.fold)
  agree : ∀ j, exactPrep (argv.map CStr.str) = some j → (j, argv.map CStr.fold) ∈ phrases ∧
    dbFindPrep (argv.map CStr.str) = some ⟨j, 0, argv.length-1⟩

/-- The first phrase of the line is `off`, and `of` comes next. -/
def OffOf : Prop := ∃ i, (∀ k < i, ∀ q, Listed q → ¬OccursAt argv k q) ∧
  OccursAt argv i [ascii "off", ascii "of"]

theorem phrases_unique : ∀ e ∈ phrases, ∀ d ∈ phrases, e.2 = d.2 → e = d := by decide +kernel

theorem offOf_listed : ((14, [ascii "off", ascii "of"]) : ℕ×List Str) ∈ phrases := by decide +kernel

theorem firstPhrase_some {words : List Str} {e : ℕ×List Str} (h : firstPhrase words = some e) :
    e ∈ phrases ∧ e.2 <+: words ∧ ∀ d ∈ phrases, d.2 <+: words → d.2.length ≤ e.2.length ∨
      (e = (14, [ascii "off"]) ∧ d = (14, [ascii "off", ascii "of"])) := by
  obtain ⟨he, as, bs, hs, has⟩ := List.find?_eq_some_iff_append.mp h
  have hew : e.2 <+: words := of_decide_eq_true he
  refine ⟨hs ▸ List.mem_append_right as List.mem_cons_self, hew, ?_⟩
  intro d hd hdw
  rw [hs] at hd
  rcases List.mem_append.mp hd with hd | hd
  · have := has d hd
    rw [decide_eq_true hdw] at this
    exact absurd this Bool.false_ne_true
  rcases List.mem_cons.mp hd with rfl | hd
  · exact Or.inl le_rfl
  have hord := phrases_ordered
  rw [hs] at hord
  have hed := (List.pairwise_cons.mp (List.pairwise_append.mp hord).2.1).1 d hd
  rcases List.prefix_or_prefix_of_prefix hew hdw with hp | hp
  · rcases hed hp with hp | hx
    · exact Or.inl hp.length_le
    · exact Or.inr (Prod.mk.inj hx)
  · exact Or.inl hp.length_le

theorem phrases_off : ∃ front, phrases =
    front ++ [(14, [ascii "off"]), (14, [ascii "off", ascii "of"])] ∧
      ∀ e ∈ front, ∃ w ws, e.2 = w::ws ∧ w ≠ ascii "off" := by
  refine ⟨phrases.take 26, by decide +kernel, ?_⟩
  have h : ∀ e ∈ phrases.take 26, e.2 ≠ [] ∧ e.2.head? ≠ some (ascii "off") := by decide +kernel
  intro e he
  obtain ⟨hne, hh⟩ := h e he
  obtain ⟨w, ws, hw⟩ := List.exists_cons_of_ne_nil hne
  refine ⟨w, ws, hw, fun heq => hh ?_⟩
  rw [hw, heq]
  rfl

/-- `off` is found where `off of` stands. -/
theorem firstPhrase_off {words : List Str} (h : [ascii "off", ascii "of"] <+: words) :
    firstPhrase words = some (14, [ascii "off"]) := by
  obtain ⟨rest, rfl⟩ := h
  obtain ⟨front, hf, hfront⟩ := phrases_off
  have hnone : front.find? (fun e => decide (e.2 <+: [ascii "off", ascii "of"] ++ rest)) = none := by
    apply List.find?_eq_none.mpr
    intro e he hd
    obtain ⟨w, ws, hw, hne⟩ := hfront e he
    have hp := of_decide_eq_true hd
    rw [hw] at hp
    exact hne (List.cons_prefix_cons.mp hp).1
  rw [firstPhrase, hf, List.find?_append, hnone, Option.none_or, List.find?_cons_of_pos]
  exact decide_eq_true ⟨ascii "of"::rest, rfl⟩

theorem exactPrep_eq : exactPrep (argv.map CStr.str) =
    (phrases.find? fun e => decide (e.2 = argv.map CStr.fold)).map Prod.fst := by
  rw [exactPrep]
  split
  · next h =>
    rw [List.map_eq_nil_iff] at h
    rw [h, List.find?_eq_none.mpr]
    · rfl
    · intro e he hd
      exact (phrases_lower e he).2.2 (of_decide_eq_true hd)
  · rw [tryTable_exact, Option.map_map]
    rfl

theorem exactPrep_some {j : ℕ} (h : exactPrep (argv.map CStr.str) = some j) :
    (j, argv.map CStr.fold) ∈ phrases := by
  rw [exactPrep_eq] at h
  obtain ⟨e, he, rfl⟩ := Option.map_eq_some_iff.mp h
  have hd : e.2 = argv.map CStr.fold := by simpa using List.find?_some he
  rw [← hd]
  exact List.mem_of_find?_eq_some he

theorem exactPrep_listed : (∃ j, exactPrep (argv.map CStr.str) = some j) ↔
    Listed (argv.map CStr.fold) := by
  constructor
  · rintro ⟨j, h⟩
    exact ⟨j, exactPrep_some argv h⟩
  · rintro ⟨j, h⟩
    rw [exactPrep_eq]
    have hsome : (phrases.find? fun e => decide (e.2 = argv.map CStr.fold)).isSome :=
      List.find?_isSome.mpr ⟨_, h, decide_eq_true (Eq.refl (argv.map CStr.fold))⟩
    obtain ⟨e, he⟩ := Option.isSome_iff_exists.mp hsome
    exact ⟨e.1, by rw [he]; rfl⟩

theorem dbFindPrep_none : dbFindPrep (argv.map CStr.str) = none ↔
    ∀ i q, Listed q → ¬OccursAt argv i q := by
  rw [dbFindPrep, searchPrep_none]
  constructor
  · rintro h i q ⟨j, hq⟩
    exact h i _ hq
  · intro h i e he
    exact h i e.2 ⟨e.1, he⟩

theorem dbFindPrep_some {f : PrepFound} (h : dbFindPrep (argv.map CStr.str) = some f) :
    ∃ e, firstPhrase ((argv.map CStr.fold).drop f.first) = some e ∧ f.prep = e.1 ∧
      f.last+1 = f.first+e.2.length ∧ ∀ k < f.first, ∀ q, Listed q → ¬OccursAt argv k q := by
  obtain ⟨i, e, rfl, he, hk⟩ := searchPrep_some argv h
  have hl : 0 < e.2.length :=
    List.length_pos_iff.mpr (phrases_lower e (firstPhrase_some he).1).2.2
  rw [Nat.zero_add]
  refine ⟨e, he, rfl, Nat.sub_add_cancel (Nat.le_add_left_of_le hl), ?_⟩
  rintro k hki q ⟨j, hq⟩
  exact hk k hki _ hq

/-- The search and the comparison are right, except where `off of` is what comes first. -/
theorem findPrep_right_iff : PrepRight argv ↔ ¬OffOf argv := by
  constructor
  · rintro h ⟨i, hi, hoff⟩
    cases hf : dbFindPrep (argv.map CStr.str) with
    | none => exact (dbFindPrep_none argv).mp hf i _ ⟨14, offOf_listed⟩ hoff
    | some f =>
      obtain ⟨p, hp, hat, hlast, hleft, hlong⟩ := h.found f hf
      obtain ⟨e, he, -, hlast', -⟩ := dbFindPrep_some argv hf
      have hfi : f.first = i := by
        rcases Nat.lt_trichotomy f.first i with hlt | heq | hlt
        · exact absurd hat (hi _ hlt p ⟨_, hp⟩)
        · exact heq
        · exact absurd hoff (hleft _ hlt _ ⟨14, offOf_listed⟩)
      rw [hfi] at he hlong
      rw [firstPhrase_off hoff] at he
      have h2 := hlong _ ⟨14, offOf_listed⟩ hoff
      rw [← Option.some.inj he] at hlast'
      simp only [List.length_cons, List.length_nil] at hlast' h2
      omega
  · intro hno
    constructor
    · intro f hf
      obtain ⟨e, he, hprep, hlast, hleft⟩ := dbFindPrep_some argv hf
      obtain ⟨hmem, hpre, hlong⟩ := firstPhrase_some he
      refine ⟨e.2, hprep ▸ hmem, hpre, hlast, hleft, ?_⟩
      rintro q ⟨j, hq⟩ hoc
      rcases hlong _ hq hoc with hle | ⟨-, hd⟩
      · exact hle
      · refine absurd ⟨f.first, hleft, ?_⟩ hno
        rw [(Prod.mk.inj hd).2] at hoc
        exact hoc
    · exact dbFindPrep_none argv
    · exact exactPrep_listed argv
    · intro j hj
      have hmem := exactPrep_some argv hj
      refine ⟨hmem, ?_⟩
      have hat : OccursAt argv 0 (argv.map CStr.fold) := List.prefix_rfl
      cases hf : dbFindPrep (argv.map CStr.str) with
      | none => exact absurd hat ((dbFindPrep_none argv).mp hf 0 _ ⟨j, hmem⟩)
      | some f =>
        obtain ⟨e, he, hprep, hlast, hleft⟩ := dbFindPrep_some argv hf
        have hf0 : f.first = 0 := by
          by_contra hne
          exact hleft 0 (Nat.pos_of_ne_zero hne) _ ⟨j, hmem⟩ hat
        rw [hf0, List.drop_zero] at he
        obtain ⟨hin, hpre, hlong⟩ := firstPhrase_some he
        rcases hlong _ hmem hat with hle | ⟨-, hd⟩
        · have heq : e = (j, argv.map CStr.fold) :=
            phrases_unique e hin _ hmem (hpre.eq_of_length_le hle)
          rw [heq] at hprep hlast
          simp only [List.length_map] at hlast
          obtain ⟨prep, first, last⟩ := f
          simp only at hf0 hprep hlast
          rw [hf0, hprep, show last = argv.length-1 by omega]
        · refine absurd ⟨0, fun k hk => absurd hk (Nat.not_lt_zero k), ?_⟩ hno
          rw [← (Prod.mk.inj hd).2]
          exact hat

end Argv

/-- `off of`, which is listed, is taken for `off` and a word more. -/
theorem off_of_shadowed :
    ¬PrepRight [⟨ascii "off", by decide⟩, ⟨ascii "of", by decide⟩] := by
  intro h
  have hs := (h.agree 14 (by decide)).2
  exact absurd hs (by decide)

end LambdaMoo.Database
