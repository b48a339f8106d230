import LambdaMoo.Links
import LambdaMoo.Values
import Mathlib.Data.List.FinRange

/-!
# The pattern cache

The compiled patterns of the last calls are kept in a fixed array of entries,
linked with the most recent one first. A call searches the links, recycles the
last entry when no other has its string and its case flag, and moves the entry
it stopped at to the front, compiled or not.
-/

set_option autoImplicit false

namespace LambdaMoo.PatternCache
open LambdaMoo.Linked

/-- The pattern is the pointer in it, null where the compiler failed. -/
structure PatCacheEntry (P : Type) where
  string : Option Str
  caseMatters : ℤ
  pattern : Option P

structure PatCache (n : ℕ) (P : Type) where
  entries : Fin n → PatCacheEntry P
  links : Links (Fin n)

variable {n : ℕ} {P : Type}

/-- The links of the entries in the order of the array. -/
def setupPatternCache (n : ℕ) (P : Type) : PatCache (n+1) P where
  entries := fun _ => ⟨none, 0, none⟩
  links := ⟨some 0, fun i => if h : i.val+1 < n+1 then some ⟨i.val+1, h⟩ else none⟩

/-- The loop: where it stopped, at which entry, and whether by a hit. -/
def search (c : PatCache n P) (string : Str) (caseMatters : ℤ) :
    ℕ → Slot (Fin n) → Result (Slot (Fin n) × Fin n × Bool)
  | 0, _ => .error .outOfFuel
  | fuel+1, entryPtr =>
    match c.links.get entryPtr with
    | none => .error (.undefined "null pointer")
    | some entry =>
      if (c.entries entry).string = some string ∧ caseMatters = (c.entries entry).caseMatters then
        .ok (entryPtr, entry, true)
      else if c.links.next entry = none then .ok (entryPtr, entry, false)
      else search c string caseMatters fuel (.next entry)

/-- What a miss stores in the entry that it recycles. -/
def refill (newPattern : Str → ℤ → Option P) (string : Str) (caseMatters : ℤ) : PatCacheEntry P :=
  ⟨(newPattern string caseMatters).map fun _ => string, caseMatters,
    newPattern string caseMatters⟩

def moveToFront (links : Links (Fin n)) (entryPtr : Slot (Fin n)) (entry : Fin n) :
    Links (Fin n) :=
  let links := links.set entryPtr (links.next entry)
  (links.set (.next entry) links.head).set .head (some entry)

def getPattern (newPattern : Str → ℤ → Option P) (c : PatCache n P) (string : Str)
    (caseMatters : ℤ) : Result (Option P × PatCache n P) := do
  let (entryPtr, entry, hit) ← search c string caseMatters (n+1) .head
  let entries := if hit then c.entries
    else Function.update c.entries entry (refill newPattern string caseMatters)
  return ((entries entry).pattern, ⟨entries, moveToFront c.links entryPtr entry⟩)

/-- A sequence of calls, with the patterns they returned. -/
def run (newPattern : Str → ℤ → Option P) :
    List (Str × ℤ) → PatCache n P → Result (List (Option P) × PatCache n P)
  | [], c => return ([], c)
  | (string, caseMatters)::calls, c => do
    let (p, c) ← getPattern newPattern c string caseMatters
    let (ps, c) ← run newPattern calls c
    return (p::ps, c)

/-- The links run once through every entry of the array. -/
def Whole (c : PatCache n P) (l : List (Fin n)) : Prop :=
  Lists c.links l ∧ l.Perm (List.finRange n)

/-- An entry with a string holds what the compiler makes of it. -/
def Paired (newPattern : Str → ℤ → Option P) (e : PatCacheEntry P) : Prop :=
  ∀ s, e.string = some s → e.pattern = newPattern s e.caseMatters

structure Inv (newPattern : Str → ℤ → Option P) (c : PatCache n P) : Prop where
  whole : ∃ l, Whole c l
  paired : ∀ i, Paired newPattern (c.entries i)

theorem refill_paired (newPattern : Str → ℤ → Option P) (string : Str) (caseMatters : ℤ) :
    Paired newPattern (refill newPattern string caseMatters) := by
  intro s hs
  obtain ⟨p, -, rfl⟩ := Option.map_eq_some_iff.mp hs
  rfl

/-- The search stops at one of the entries, with the slot that points to it. -/
theorem search_stops (c : PatCache n P) (string : Str) (caseMatters : ℤ) {l m : List (Fin n)}
    (hl : Lists c.links (l ++ m)) (hm : m ≠ []) {fuel : ℕ} (hf : m.length ≤ fuel) :
    ∃ k e r hit, l ++ m = k ++ e::r ∧
      search c string caseMatters fuel (final .head l) = .ok (final .head k, e, hit) ∧
      (hit = true → (c.entries e).string = some string ∧
        caseMatters = (c.entries e).caseMatters) := by
  induction m generalizing l fuel with
  | nil => exact absurd rfl hm
  | cons e m ih =>
    cases fuel with
    | zero => simp at hf
    | succ fuel =>
      have hget : c.links.get (final .head l) = some e := hl.get_final
      rw [search, hget]
      dsimp only
      by_cases hit : (c.entries e).string = some string ∧
          caseMatters = (c.entries e).caseMatters
      · rw [if_pos hit]
        exact ⟨l, e, m, true, rfl, rfl, fun _ => hit⟩
      · rw [if_neg hit]
        by_cases hlast : c.links.next e = none
        · rw [if_pos hlast]
          exact ⟨l, e, m, false, rfl, rfl, by simp⟩
        · rw [if_neg hlast]
          have hm : m ≠ [] := by
            intro h
            rw [hl.next_eq, h] at hlast
            exact hlast rfl
          rw [List.append_cons] at hl
          have hfuel : m.length ≤ fuel := by simpa using hf
          obtain ⟨k, e', r, hit', heq, hs, hh⟩ := ih hl hm hfuel
          rw [final_concat] at hs
          exact ⟨k, e', r, hit', by rw [List.append_cons, heq], hs, hh⟩

theorem moveToFront_lists {links : Links (Fin n)} {k r : List (Fin n)} {e : Fin n}
    (h : Lists links (k ++ e::r)) :
    Lists (moveToFront links (final .head k) e) (e::(k ++ r)) := by
  have hne : e ∉ k ++ r := (List.nodup_cons.mp (List.nodup_middle.mp h.nodup)).1
  exact h.remove.cons hne

/-- A call returns what the compiler makes of its arguments. -/
theorem getPattern_spec (newPattern : Str → ℤ → Option P) {c : PatCache (n+1) P}
    (hc : Inv newPattern c) (string : Str) (caseMatters : ℤ) :
    ∃ c', getPattern newPattern c string caseMatters = .ok (newPattern string caseMatters, c') ∧
      Inv newPattern c' := by
  obtain ⟨⟨l, hl, hperm⟩, hpair⟩ := hc
  have hlen : l.length = n+1 := by
    rw [hperm.length_eq, List.length_finRange]
  have hne : l ≠ [] := by
    intro h
    simp [h] at hlen
  obtain ⟨k, e, r, hit, heq, hsearch, hhit⟩ := search_stops c string caseMatters (l := []) hl hne
    (show l.length ≤ n+1+1 by omega)
  rw [List.nil_append] at heq
  subst heq
  have hwhole : ∃ l, Lists (moveToFront c.links (final .head k) e) l ∧
      l.Perm (List.finRange (n+1)) :=
    ⟨e::(k ++ r), moveToFront_lists hl, List.perm_middle.symm.trans hperm⟩
  rw [getPattern, show (Slot.head : Slot (Fin (n+1))) = final .head [] from rfl, hsearch]
  cases hit with
  | true =>
    have hpat := hpair e string (hhit rfl).1
    rw [← (hhit rfl).2] at hpat
    refine ⟨⟨c.entries, moveToFront c.links (final .head k) e⟩, ?_, hwhole, hpair⟩
    rw [← hpat]
    rfl
  | false =>
    refine ⟨⟨Function.update c.entries e (refill newPattern string caseMatters),
      moveToFront c.links (final .head k) e⟩, ?_, hwhole, ?_⟩
    · have hself : (Function.update c.entries e (refill newPattern string caseMatters) e).pattern =
          newPattern string caseMatters := by
        rw [Function.update_self]
        rfl
      rw [← hself]
      rfl
    · intro i
      show Paired newPattern (Function.update c.entries e _ i)
      by_cases hi : i = e
      · subst hi
        rw [Function.update_self]
        exact refill_paired newPattern string caseMatters
      · rw [Function.update_of_ne hi]
        exact hpair i

theorem setup_next {k m : List (Fin (n+1))} {i : Fin (n+1)}
    (h : List.finRange (n+1) = k ++ i::m) :
    (setupPatternCache n P).links.next i = m.head? := by
  have hi : i.val = k.length := by
    have hget : (List.finRange (n+1))[k.length]? = some i := by
      rw [h]
      simp
    obtain ⟨hlt, hval⟩ := List.getElem?_eq_some_iff.mp hget
    simp [← hval]
  have hm : m.head? = (List.finRange (n+1))[i.val+1]? := by
    rw [h, hi, List.append_cons, List.getElem?_append_right (by simp)]
    simp [List.head?_eq_getElem?]
  have hnext : (setupPatternCache n P).links.next i =
      if h : i.val+1 < n+1 then some ⟨i.val+1, h⟩ else none := rfl
  rw [hm, hnext]
  by_cases hlt : i.val+1 < n+1
  · rw [dif_pos hlt, List.getElem?_eq_getElem (by simpa using hlt)]
    simp
  · rw [dif_neg hlt, List.getElem?_eq_none (by simpa using hlt)]

theorem setup_inv (newPattern : Str → ℤ → Option P) :
    Inv newPattern (setupPatternCache n P) := by
  have hhead : (setupPatternCache n P).links.get .head = (List.finRange (n+1)).head? := by
    rw [List.finRange_succ]
    rfl
  have hpath := path_of_next hhead fun _ _ _ h => setup_next h
  refine ⟨⟨List.finRange (n+1), ⟨hpath.1, hpath.2, List.nodup_finRange (n+1)⟩, .refl _⟩, ?_⟩
  intro i s hs
  cases hs

theorem run_spec (newPattern : Str → ℤ → Option P) (calls : List (Str × ℤ))
    {c : PatCache (n+1) P} (hc : Inv newPattern c) :
    ∃ c', run newPattern calls c = .ok (calls.map fun a => newPattern a.1 a.2, c') ∧
      Inv newPattern c' := by
  induction calls generalizing c with
  | nil => exact ⟨c, rfl, hc⟩
  | cons a calls ih =>
    obtain ⟨c₁, h₁, hc₁⟩ := getPattern_spec newPattern hc a.1 a.2
    obtain ⟨c₂, h₂, hc₂⟩ := ih hc₁
    refine ⟨c₂, ?_, hc₂⟩
    rw [run, h₁]
    show (run newPattern calls c₁ >>= _) = _
    rw [h₂]
    rfl

/-- Every call of every sequence gets the pattern of its own string and case flag, or null exactly
where the compiler fails on them, and the entries stay linked once each. -/
theorem patterns_of_run (n : ℕ) (newPattern : Str → ℤ → Option P) (calls : List (Str × ℤ)) :
    ∃ c, run newPattern calls (setupPatternCache n P) =
        .ok (calls.map fun a => newPattern a.1 a.2, c) ∧
      ∃ l, Whole c l := by
  obtain ⟨c, hrun, hc⟩ := run_spec newPattern calls (setup_inv (n := n) newPattern)
  exact ⟨c, hrun, hc.whole⟩

end LambdaMoo.PatternCache
