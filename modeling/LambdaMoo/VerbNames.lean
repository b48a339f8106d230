import LambdaMoo.Names
import LambdaMoo.Verbs
import Mathlib.Data.List.Infix
import Mathlib.Data.List.TakeWhile

/-!
# The names of a verb

The names of a verb are separated by spaces, and a star in one of them ends
what a word has to spell of it. The scan of `verbcasecmp` accepts the words that
this says of the contents of the two strings. The test before the scan compares
the addresses, and a string with a star inside is not one of its own names.
-/

set_option autoImplicit false

namespace LambdaMoo.Database

/-- A name without its stars. -/
def stem (a : Str) : Str := a.filter (· ≠ 42)

/-- How much of a name a word has to spell. -/
def least (a : Str) : ℕ := (a.takeWhile (· ≠ 42)).length

structure Abbreviates (a w : Str) : Prop where
  spelled : fold w <+: fold (stem a)
  enough : least a ≤ w.length

structure Extends (a w : Str) : Prop where
  starred : a.getLast? = some 42
  spelled : fold (stem a) <+: fold w

def AliasMatches (a w : Str) : Prop := Abbreviates a w ∨ Extends a w

def NameMatches (verb word : Str) : Prop := ∃ a ∈ verb.splitOn 32, AliasMatches a word

/-- The stars of a word are all at its end. -/
def StarsLast (word : Str) : Prop := ∀ c ∈ word.dropWhile (· ≠ 42), c = 42

instance (word : Str) : Decidable (StarsLast word) :=
  inferInstanceAs (Decidable (∀ c ∈ _, c = 42))

/-- The strings of the server by their addresses. -/
abbrev Strings := ℕ → CStr

/-- A verb's names and a word that are one string match before any scan. -/
def Strings.verbcasecmp (m : Strings) (verb word : ℕ) : Bool :=
  if verb = word then true else Database.verbcasecmp (m verb).str (m word).str

theorem stem_cons {c : Byte} (hc : c ≠ 42) (a : Str) : stem (c::a) = c::stem a := by
  rw [stem, List.filter_cons_of_pos (by simpa using hc), stem]

theorem stem_star (a : Str) : stem (42::a) = stem a := by
  rw [stem, List.filter_cons_of_neg (by simp), stem]

theorem least_cons {c : Byte} (hc : c ≠ 42) (a : Str) : least (c::a) = least a+1 := by
  rw [least, List.takeWhile_cons_of_pos (by simpa using hc), List.length_cons, least]

theorem least_star (a : Str) : least (42::a) = 0 := by
  rw [least, List.takeWhile_cons_of_neg (by simp), List.length_nil]

theorem fold_cons (c : Byte) (s : Str) : fold (c::s) = cmap c::fold s := rfl

/-- What the scan accepts of a name in a state of the stars before it. -/
def Accepted (star : Star) (a w : Str) : Prop :=
  fold w <+: fold (stem a) ∧ (star ≠ .none ∨ least a ≤ w.length) ∨
    (if a = [] then star = .last else a.getLast? = some 42) ∧ fold (stem a) <+: fold w

theorem accepted_none (a w : Str) : Accepted .none a w ↔ AliasMatches a w := by
  rw [Accepted, AliasMatches]
  apply or_congr
  · constructor
    · intro h
      exact ⟨h.1, h.2.resolve_left (by simp)⟩
    · intro h
      exact ⟨h.spelled, .inr h.enough⟩
  · constructor
    · intro h
      by_cases ha : a = []
      · simp [ha] at h
      · rw [if_neg ha] at h
        exact ⟨h.1, h.2⟩
    · intro h
      have ha : a ≠ [] := by
        intro ha
        have := h.starred
        simp [ha] at this
      rw [if_neg ha]
      exact ⟨h.starred, h.spelled⟩

theorem accepted_nil (star : Star) (w : Str) :
    Accepted star [] w ↔ w = [] ∨ star = .last := by
  simp [Accepted, stem, least, fold]

theorem accepted_star (star star' : Star) (a w : Str)
    (h : star' = if a = [] then .last else .inner) :
    Accepted star (42::a) w ↔ Accepted star' a w := by
  subst h
  rw [Accepted, Accepted, stem_star, least_star]
  by_cases ha : a = []
  · simp [ha]
  · rw [if_neg ha, if_neg ha, if_neg (by simp), List.getLast?_cons_of_ne_nil ha]
    simp

theorem accepted_spent {star : Star} {c : Byte} (hc : c ≠ 42) (a : Str) :
    Accepted star (c::a) [] ↔ star ≠ .none := by
  rw [Accepted, stem_cons hc, least_cons hc]
  simp [fold]

theorem accepted_cons {star : Star} (hs : star ≠ .last) {c : Byte} (hc : c ≠ 42) (a : Str)
    (d : Byte) (w : Str) :
    Accepted star (c::a) (d::w) ↔ cmap d = cmap c ∧ Accepted star a w := by
  rw [Accepted, Accepted, stem_cons hc, least_cons hc, fold_cons, fold_cons,
    List.cons_prefix_cons, List.cons_prefix_cons, if_neg (by simp), List.length_cons,
    Nat.add_le_add_iff_right]
  by_cases ha : a = []
  · subst ha
    simp [hs, hc]
    tauto
  · rw [if_neg ha, List.getLast?_cons_of_ne_nil ha]
    tauto

/-- The end of a name: the rest of the names begins with a space or is empty. -/
def Stops (r : Str) : Prop := r = [] ∨ r.head? = some 32

theorem append_stops {a r : Str} (ha : 32 ∉ a) (hr : Stops r) :
    (a ++ r = [] ∨ (a ++ r).head? = some 32) ↔ a = [] := by
  cases a with
  | nil => simpa [Stops] using hr
  | cons c a =>
    have hc : c ≠ 32 := fun h => ha (by simp [h])
    simp [hc]

theorem scanName_accepted {a r : Str} (ha : 32 ∉ a) (hr : Stops r) (star : Star)
    (hs : star = .last → a = []) (w : Str) :
    ((scanName star (a ++ r) w).1 = true ↔ Accepted star a w) ∧
      ∃ q, q <:+ a ∧ (scanName star (a ++ r) w).2 = q ++ r := by
  induction a generalizing star w with
  | nil =>
    rw [accepted_nil, List.nil_append]
    rcases hr with rfl | hr
    · exact ⟨by simp [scanName], [], List.suffix_refl [], by simp [scanName]⟩
    · obtain ⟨r', rfl⟩ := List.head?_eq_some_iff.mp hr
      exact ⟨by simp [scanName], [], List.suffix_refl [], by simp [scanName]⟩
  | cons c a ih =>
    have ha' : 32 ∉ a := fun h => ha (List.mem_cons_of_mem c h)
    have hc32 : c ≠ 32 := fun h => ha (by simp [h])
    have hlast : star ≠ .last := fun h => absurd (hs h) (by simp)
    rw [List.cons_append, scanName.eq_def]
    dsimp only
    by_cases hc : c = 42
    · subst hc
      have hstar : (if a ++ r = [] ∨ (a ++ r).head? = some 32 then Star.last else .inner) =
          if a = [] then .last else .inner := by
        simp only [append_stops ha' hr]
      rw [if_pos rfl, hstar]
      obtain ⟨hm, q, hq, hrest⟩ := ih ha' (if a = [] then .last else .inner) (by simp) w
      exact ⟨hm.trans (accepted_star star _ a w rfl).symm, q,
        hq.trans (List.suffix_cons 42 a), hrest⟩
    · rw [if_neg hc, if_neg hc32]
      cases w with
      | nil =>
        rw [accepted_spent hc]
        exact ⟨by simp, c::a, List.suffix_refl _, rfl⟩
      | cons d w =>
        rw [accepted_cons hlast hc]
        by_cases hd : cmap d = cmap c
        · obtain ⟨hm, q, hq, hrest⟩ := ih ha' star (fun h => absurd h hlast) w
          simp only [hd, if_true, true_and]
          exact ⟨hm, q, hq.trans (List.suffix_cons c a), hrest⟩
        · simp only [hd, if_false, false_and, hlast, decide_false]
          exact ⟨by simp, c::a, List.suffix_refl _, rfl⟩

theorem nextName_append {q r : Str} (hq : 32 ∉ q) (hr : Stops r) :
    nextName (q ++ r) = r.dropWhile (· = 32) := by
  have hall : ∀ c ∈ q, decide (c ≠ 32) = true := by
    intro c hc
    rw [decide_eq_true_eq]
    intro h
    exact hq (h ▸ hc)
  rw [nextName, List.dropWhile_append_of_pos hall]
  rcases hr with rfl | hr
  · rfl
  · obtain ⟨r', rfl⟩ := List.head?_eq_some_iff.mp hr
    rw [List.dropWhile_cons_of_neg (a := 32) (by simp)]

/-- A word that is not empty is not one of the empty names between two spaces. -/
theorem not_matches_nil {w : Str} (hw : w ≠ []) : ¬ AliasMatches [] w := by
  rw [← accepted_none, accepted_nil]
  simp [hw]

theorem nameMatches_space {w : Str} (hw : w ≠ []) (v : Str) :
    NameMatches (32::v) w ↔ NameMatches v w := by
  have hnil : (32 : UInt8) ∉ ([] : Str) := List.not_mem_nil
  have h : List.splitOn 32 (32::v) = []::v.splitOn 32 :=
    List.splitOn_append_cons_self_of_not_mem hnil v
  rw [NameMatches, NameMatches, h, List.exists_mem_cons_iff]
  simp [not_matches_nil hw]

theorem nameMatches_spaces {w : Str} (hw : w ≠ []) (r : Str) :
    NameMatches (r.dropWhile (· = 32)) w ↔ NameMatches r w := by
  induction r with
  | nil => rfl
  | cons c r ih =>
    by_cases hc : c = 32
    · subst hc
      rw [List.dropWhile_cons_of_pos (by simp), ih, nameMatches_space hw]
    · rw [List.dropWhile_cons_of_neg (by simpa using hc)]

theorem nameMatches_append {a r w : Str} (ha : 32 ∉ a) (hr : Stops r) (hw : w ≠ []) :
    NameMatches (a ++ r) w ↔ AliasMatches a w ∨ NameMatches (r.dropWhile (· = 32)) w := by
  rw [nameMatches_spaces hw]
  rcases hr with rfl | hr
  · have hnil : ¬ NameMatches [] w := by
      rw [NameMatches, List.splitOn_nil]
      simp [not_matches_nil hw]
    rw [List.append_nil, NameMatches, List.splitOn_eq_singleton ha]
    simp [hnil]
  · obtain ⟨r', rfl⟩ := List.head?_eq_some_iff.mp hr
    rw [nameMatches_space hw, NameMatches, NameMatches,
      List.splitOn_append_cons_self_of_not_mem ha, List.exists_mem_cons_iff]

theorem split_name (v : Str) : ∃ a r, v = a ++ r ∧ 32 ∉ a ∧ Stops r := by
  induction v with
  | nil => exact ⟨[], [], rfl, List.not_mem_nil, .inl rfl⟩
  | cons c v ih =>
    obtain ⟨a, r, rfl, ha, hr⟩ := ih
    by_cases hc : c = 32
    · exact ⟨[], c::(a ++ r), rfl, List.not_mem_nil, .inr (by simp [hc])⟩
    · exact ⟨c::a, r, rfl, by simp [Ne.symm hc, ha], hr⟩

theorem scanName_names {v w : Str} (hw : w ≠ []) :
    NameMatches v w ↔
      (scanName .none v w).1 = true ∨ NameMatches (nextName (scanName .none v w).2) w := by
  obtain ⟨a, r, rfl, ha, hr⟩ := split_name v
  obtain ⟨hm, q, hq, hrest⟩ := scanName_accepted ha hr .none (by simp) w
  have hq32 : 32 ∉ q := fun h => ha (hq.subset h)
  rw [hm, accepted_none, hrest, nextName_append hq32 hr, nameMatches_append ha hr hw]

theorem verbcasecmp_iff (verb : Str) {word : Str} (hw : word ≠ []) :
    verbcasecmp verb word = true ↔ NameMatches verb word := by
  fun_induction verbcasecmp verb word with
  | case1 => simp [NameMatches, not_matches_nil hw]
  | case2 c v hs => exact iff_of_true rfl ((scanName_names hw).mpr (.inl hs))
  | case3 c v hs ih =>
    rw [ih, scanName_names (v := c::v) hw]
    simp [hs]

theorem cmap_star {c : Byte} (hc : c ≠ 42) : cmap c ≠ 42 := by
  rw [cmap]
  by_cases h : 65 ≤ c.toNat ∧ c.toNat ≤ 90
  · rw [if_pos h]
    intro h42
    have := congrArg UInt8.toNat h42
    simp only [UInt8.toNat_add, UInt8.reduceToNat] at this
    omega
  · rw [if_neg h]
    exact hc

theorem starsLast_cons {c : Byte} (hc : c ≠ 42) (a : Str) :
    StarsLast (c::a) ↔ StarsLast a := by
  rw [StarsLast, List.dropWhile_cons_of_pos (by simpa using hc), StarsLast]

theorem starsLast_star (a : Str) : StarsLast (42::a) ↔ stem a = [] := by
  rw [StarsLast, List.dropWhile_cons_of_neg (by simp), List.forall_mem_cons, stem,
    List.filter_eq_nil_iff]
  simp

theorem stem_prefix_iff (a : Str) : fold (stem a) <+: fold a ↔ StarsLast a := by
  induction a with
  | nil => simp [stem, fold, StarsLast]
  | cons c a ih =>
    by_cases hc : c = 42
    · subst hc
      rw [stem_star, starsLast_star]
      cases hs : stem a with
      | nil => simp [fold]
      | cons d t =>
        have hd : d ≠ 42 := by
          have : d ∈ stem a := by simp [hs]
          simpa using (List.mem_filter.mp this).2
        rw [fold_cons, fold_cons, List.cons_prefix_cons]
        exact iff_of_false (fun h => cmap_star hd h.1) (by simp)
    · rw [stem_cons hc, fold_cons, fold_cons, List.cons_prefix_cons, starsLast_cons hc, ih]
      simp

theorem abbreviates_self (a : Str) : Abbreviates a a ↔ 42 ∉ a := by
  constructor
  · intro h hmem
    have hle : a.length ≤ (stem a).length := by
      simpa [fold] using h.spelled.length_le
    have hlt : (stem a).length < a.length :=
      List.length_filter_lt_length_iff_exists.mpr ⟨42, hmem, by simp⟩
    omega
  · intro h
    have hall : ∀ c ∈ a, decide (c ≠ 42) = true := by
      intro c hc
      rw [decide_eq_true_eq]
      intro h42
      exact h (h42 ▸ hc)
    have hstem : stem a = a := List.filter_eq_self.mpr hall
    exact ⟨by rw [hstem], (List.takeWhile_sublist _).length_le⟩

theorem starsLast_getLast {a : Str} (h : StarsLast a) (hmem : 42 ∈ a) :
    a.getLast? = some 42 := by
  induction a with
  | nil => simp at hmem
  | cons c a ih =>
    by_cases ha : a = []
    · simpa [ha, eq_comm] using hmem
    · rw [List.getLast?_cons_of_ne_nil ha]
      by_cases hc : c = 42
      · subst hc
        have hall : ∀ d ∈ a, d = 42 := by
          rw [starsLast_star, stem, List.filter_eq_nil_iff] at h
          simpa using h
        rw [List.getLast?_eq_some_getLast ha, hall _ (List.getLast_mem ha)]
      · apply ih ((starsLast_cons hc a).mp h)
        simpa [Ne.symm hc] using hmem

/-- A string is one of its own names when its stars are at its end. -/
theorem aliasMatches_self (a : Str) : AliasMatches a a ↔ StarsLast a := by
  by_cases hmem : 42 ∈ a
  · constructor
    · intro h
      rcases h with h | h
      · exact absurd hmem ((abbreviates_self a).mp h)
      · exact (stem_prefix_iff a).mp h.spelled
    · intro h
      exact .inr ⟨starsLast_getLast h hmem, (stem_prefix_iff a).mpr h⟩
  · have hself := (abbreviates_self a).mpr hmem
    have hall : ∀ c ∈ a, decide (c ≠ 42) = true := by
      intro c hc
      rw [decide_eq_true_eq]
      intro h42
      exact hmem (h42 ▸ hc)
    exact iff_of_true (.inl hself) (by
      rw [StarsLast, List.dropWhile_eq_nil_iff.mpr hall]
      simp)

/-- The comparison of addresses is right of a string whose stars are at its end. -/
theorem verbcasecmp_matches_iff (m : Strings) (verb word : ℕ) (hne : (m word).str ≠ [])
    (hsp : 32 ∉ (m word).str) :
    (m.verbcasecmp verb word = true ↔ NameMatches (m verb).str (m word).str) ↔
      (verb = word → StarsLast (m word).str) := by
  rw [Strings.verbcasecmp]
  by_cases h : verb = word
  · subst h
    have hself : NameMatches (m verb).str (m verb).str ↔ StarsLast (m verb).str := by
      rw [NameMatches, List.splitOn_eq_singleton hsp]
      simp [aliasMatches_self]
    rw [if_pos rfl, hself]
    simp
  · rw [if_neg h, verbcasecmp_iff _ hne]
    simp [h]

/-- The names of a verb whose words are `l*ook` and `exa*mine`, and a word. -/
def lookNames : Strings := fun i =>
  if i = 0 then ⟨[108, 42, 111, 111, 107, 32, 101, 120, 97, 42, 109, 105, 110, 101], by decide⟩
  else ⟨[101, 88, 97, 109], by decide⟩

theorem verbcasecmp_matches_look :
    lookNames.verbcasecmp 0 1 = true ↔ NameMatches (lookNames 0).str (lookNames 1).str :=
  (verbcasecmp_matches_iff lookNames 0 1 (by decide) (by decide)).mpr (by simp)

/-- The string `l*ook` at one address is not a word for its own verb. -/
theorem verbcasecmp_self_star :
    ¬ ∀ (m : Strings) (verb word : ℕ), (m word).str ≠ [] → 32 ∉ (m word).str →
      (m.verbcasecmp verb word = true ↔ NameMatches (m verb).str (m word).str) := by
  intro h
  have h0 := h (fun _ => ⟨[108, 42, 111, 111, 107], by decide⟩) 0 0 (by decide) (by decide)
  have hself : ¬ AliasMatches [108, 42, 111, 111, 107] [108, 42, 111, 111, 107] := by
    rw [aliasMatches_self]
    decide
  apply hself
  have hm := h0.mp (by simp [Strings.verbcasecmp])
  rw [NameMatches, List.splitOn_eq_singleton (by decide)] at hm
  simpa using hm

end LambdaMoo.Database
