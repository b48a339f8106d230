import LambdaMoo.ListingExpr

/-!
# Exits from loops

A `break` adds a label that is defined only when its loop ends. Until then it
is in the chain of that loop, named here by the number of loops around it.
`Extends` is `Grows` with such exits, and with labels from before that are
defined on the way.
-/

set_option autoImplicit false

namespace LambdaMoo.CodeGen

/-- The loop that each pending label belongs to. -/
abbrev Exits := ℕ → Option ℕ

structure Pending (s : State) (P : Exits) : Prop where
  chain : ∀ i j l, s.loops[i]? = some l → i+j+1 = s.loops.length →
    ∃ S, Linked s.code S l.bottomLabel ∧ ∀ p, p ∈ S ↔ P p = some j
  lt : ∀ p i, P p = some i → i < s.loops.length
  tops : ∀ l ∈ s.loops, Resolved s.entries l.topLabel

/-- What `break` leaves unchanged in a loop. -/
def Loop.outline (l : Loop) : Option ℕ × Label × ℕ × ℕ := (l.id, l.topLabel, l.topStack, l.bottomStack)

/-- The code from `s` to `s'`: what was there is kept but for the labels `D`,
which are defined; of the labels added only `Q` and the exits are open. -/
structure Extends (s s' : State) (P P' : Exits) (D Q : List ℕ) : Prop where
  entries : s.entries <+: s'.entries
  keep : ∀ p < s.numBytes, p ∉ D → s'.code[p]? = s.code[p]?
  counted : s'.num = tally s'.entries
  loops : s'.loops.map Loop.outline = s.loops.map Loop.outline
  literals : s.gstate.literals <+: s'.gstate.literals
  forks : s.gstate.forkVectors <+: s'.gstate.forkVectors
  exits : ∀ p < s.numBytes, P' p = P p
  pending : Pending s' P'
  labels : ∀ p l, s.numBytes ≤ p ∨ p ∈ D → s'.code[p]? = some (.label l) →
    p ∈ Q ∨ P' p ≠ none ∨ Settled s'.entries l

theorem Pending.pos_lt {s : State} {P : Exits} (h : Pending s P) {p : ℕ} (hp : P p ≠ none) :
    p < s.numBytes := by
  obtain ⟨i, hi⟩ := Option.ne_none_iff_exists'.mp hp
  have hlt := h.lt p i hi
  have hk : s.loops.length-1-i < s.loops.length := by omega
  obtain ⟨S, hS, hmem⟩ := h.chain _ i _ (List.getElem?_eq_getElem hk) (by omega)
  exact hS.lt ((hmem p).mpr hi)

theorem Pending.unset {s : State} {P : Exits} (h : Pending s P) {p : ℕ} (hp : s.numBytes ≤ p) :
    P p = none := by
  by_contra hn
  have := h.pos_lt hn
  omega

/-- Pending exits stay pending while their cells and the loops stay. -/
theorem Pending.keep {s s' : State} {P : Exits} (h : Pending s P) (hloops : s'.loops = s.loops)
    (hcode : ∀ p, P p ≠ none → s'.code[p]? = s.code[p]?) (he : s.entries <+: s'.entries) :
    Pending s' P := by
  refine ⟨fun i j l hl hj => ?_, fun p i hp => hloops ▸ h.lt p i hp,
    fun l hl => (h.tops l (hloops ▸ hl)).mono he⟩
  obtain ⟨S, hS, hmem⟩ := h.chain i j l (hloops ▸ hl) (hloops ▸ hj)
  refine ⟨S, hS.congr fun p hp => hcode p ?_, hmem⟩
  simp [(hmem p).mp hp]

theorem Grows.extends {s s' : State} {P : Exits} {Q : List ℕ} (K : Grows s s' Q)
    (hP : Pending s P) : Extends s s' P P [] Q := by
  refine ⟨K.entries, fun p hp _ => K.keep p hp, K.counted, by rw [K.loops], K.literals, K.forks,
    fun _ _ => rfl, hP.keep K.loops (fun p hp => K.keep p (hP.pos_lt hp)) K.entries, ?_⟩
  intro p l hp hl
  exact (K.labels p l (hp.resolve_right List.not_mem_nil) hl).imp_right .inr

namespace Extends

variable {s₀ s s' : State} {P₀ P P' : Exits} {D D' Q Q' : List ℕ}

theorem le (X : Extends s s' P P' D Q) : s.numBytes ≤ s'.numBytes := by
  simpa using X.entries.length_le

theorem trans (X : Extends s₀ s P₀ P D Q) (Y : Extends s s' P P' D' Q') {R : List ℕ}
    (hQ : ∀ p ∈ Q, p ∈ D' ∨ p ∈ R) (hQ' : ∀ p ∈ Q', p ∈ R) :
    Extends s₀ s' P₀ P' (D++D') R := by
  have hle := X.le
  refine ⟨X.entries.trans Y.entries, fun p hp hD => ?_, Y.counted, Y.loops.trans X.loops,
    X.literals.trans Y.literals, X.forks.trans Y.forks, fun p hp => ?_, Y.pending, ?_⟩
  · rw [List.mem_append, not_or] at hD
    rw [Y.keep p (by omega) hD.2, X.keep p hp hD.1]
  · rw [Y.exits p (by omega), X.exits p hp]
  · intro p l hp hl
    by_cases hY : s.numBytes ≤ p ∨ p ∈ D'
    · exact (Y.labels p l hY hl).imp_left (hQ' p)
    · rw [not_or, Nat.not_le] at hY
      rw [Y.keep p hY.1 hY.2] at hl
      have hp' : s₀.numBytes ≤ p ∨ p ∈ D :=
        hp.imp_right fun h => (List.mem_append.mp h).resolve_right hY.2
      rw [Y.exits p hY.1]
      exact (X.labels p l hp' hl).imp (fun h => (hQ p h).resolve_left hY.2)
        (.imp_right (·.mono Y.entries))

/-- Labels that are not from before. -/
theorem drop (X : Extends s s' P P' D Q) (hD : ∀ p ∈ D, s.numBytes ≤ p) :
    Extends s s' P P' [] Q :=
  ⟨X.entries, fun p hp _ => X.keep p hp fun h => by have := hD p h; omega, X.counted, X.loops,
    X.literals, X.forks, X.exits, X.pending,
    fun p l hp hl => X.labels p l (.inl (hp.resolve_right List.not_mem_nil)) hl⟩

end Extends

/-- Defining a chain of labels none of which is an exit. -/
theorem defineLabel_extends {s : State} {P : Exits} (hP : Pending s P)
    (hc : s.num = tally s.entries) {S : List ℕ} {label : Option ℕ}
    (hL : Linked s.code S label) (hS : ∀ p ∈ S, P p = none) :
    Extends s (defineLabel label s) P P S [] := by
  have he : (defineLabel label s).entries = s.entries := by
    simp [State.entries, defineLabel, defineChain_entries]
  refine ⟨he ▸ List.prefix_rfl, fun p _ hp => (defineLabel_get hL p).1 hp,
    counted_define label hc, rfl, List.prefix_rfl, List.prefix_rfl, fun _ _ => rfl,
    hP.keep rfl (fun p hp => (defineLabel_get hL p).1 fun h => hp (hS p h))
      (he ▸ List.prefix_rfl), ?_⟩
  intro p l hp hl
  by_cases hpS : p ∈ S
  · obtain ⟨next, hd⟩ := (defineLabel_get hL p).2 hpS
    rw [hd, Option.some.injEq, Cell.label.injEq] at hl
    subst hl
    refine .inr (.inr (.inl ⟨by simp, ?_⟩))
    simp only [he, ← State.entries_length, List.take_length]
    exact hc
  · have hlt := (List.getElem?_eq_some_iff.mp hl).1
    have hn := defineLabel_numBytes label s
    have := hp.resolve_right hpS
    simp only [State.numBytes] at hn this
    omega

theorem Open.linked {s : State} {k : ℕ} {labels : List ℕ} (ho : Open s (k::labels)) :
    Linked s.code [k] (some k) := by
  obtain ⟨l, hl, hn⟩ := ho.2 k List.mem_cons_self
  exact .single hl hn

theorem Open.extend {s s' : State} {P P' : Exits} {D Q labels : List ℕ} (ho : Open s labels)
    (X : Extends s s' P P' D Q) (hD : ∀ k ∈ labels, k ∉ D) : Open s' labels := by
  refine ⟨ho.1, fun k hk => ?_⟩
  obtain ⟨l, hl, hn⟩ := ho.2 k hk
  exact ⟨l, (X.keep k (List.getElem?_eq_some_iff.mp hl).1 (hD k hk)).trans hl, hn⟩

theorem Linked.unchanged {code code' : List Cell} {S : List ℕ} {label : Option ℕ} {n : ℕ}
    (h : Linked code S label) (hS : ∀ p ∈ S, p < n) (hc : ∀ p < n, code'[p]? = code[p]?) :
    Linked code' S label := h.congr fun p hp => hc p (hS p hp)

/-- Finished code that agrees with a state from `lo` up to `hi`, except where
it already has the target `w` that the state still leaves open. -/
structure Agrees (T : Tables) (code : List Cell) (w : ℕ → Option ℕ) (lo hi : ℕ) (s : State) :
    Prop where
  cells : ∀ p, lo ≤ p → p < hi → w p = none → code[p]? = s.code[p]?
  points : ∀ p q, lo ≤ p → p < hi → w p = some q → Points code p q
  entries : s.entries <+: code.map Cell.entry
  literals : s.gstate.literals <+: T.literals
  forks : s.gstate.forkVectors <+: T.forkVectors

namespace Agrees

variable {T : Tables} {code : List Cell} {w : ℕ → Option ℕ} {lo hi : ℕ} {s s' : State}

theorem sub (h : Agrees T code w lo hi s) {lo' hi' : ℕ} (hlo : lo ≤ lo') (hhi : hi' ≤ hi) :
    Agrees T code w lo' hi' s :=
  ⟨fun p hp hp' => h.cells p (hlo.trans hp) (hp'.trans_le hhi),
    fun p q hp hp' => h.points p q (hlo.trans hp) (hp'.trans_le hhi), h.entries, h.literals,
    h.forks⟩

theorem congr (h : Agrees T code w lo hi s) {w' : ℕ → Option ℕ}
    (hw : ∀ p, lo ≤ p → p < hi → w' p = w p) : Agrees T code w' lo hi s :=
  ⟨fun p hp hp' hn => h.cells p hp hp' (hw p hp hp' ▸ hn),
    fun p q hp hp' hq => h.points p q hp hp' (hw p hp hp' ▸ hq), h.entries, h.literals, h.forks⟩

theorem seg (h : Agrees T code w lo hi s) (hw : ∀ p, lo ≤ p → p < hi → w p = none) :
    Seg T code lo hi s :=
  ⟨fun p hp hp' => h.cells p hp hp' (hw p hp hp'), h.entries, h.literals, h.forks⟩

/-- The code agrees with an earlier state too. -/
theorem back {P P' : Exits} {D Q : List ℕ} (h : Agrees T code w lo hi s')
    (X : Extends s s' P P' D Q) (hhi : hi ≤ s.numBytes) (hD : ∀ p ∈ D, p < lo ∨ hi ≤ p) :
    Agrees T code w lo hi s := by
  refine ⟨fun p hp hp' hn => ?_, h.points, X.entries.trans h.entries, X.literals.trans h.literals,
    X.forks.trans h.forks⟩
  rw [h.cells p hp hp' hn, X.keep p (hp'.trans_le hhi) fun hpD => ?_]
  have := hD p hpD
  omega

/-- The labels that were defined on the way point where the code says. -/
theorem undefine {P P' : Exits} {D Q : List ℕ} (h : Agrees T code w lo hi s')
    (X : Extends s s' P P' D Q) (hhi : hi ≤ s.numBytes) {w' : ℕ → Option ℕ}
    (hw : ∀ p, lo ≤ p → p < hi → p ∉ D → w' p = w p)
    (hD : ∀ p ∈ D, lo ≤ p → p < hi → ∃ q, w' p = some q ∧ Points code p q) :
    Agrees T code w' lo hi s := by
  refine ⟨fun p hp hp' hn => ?_, fun p q hp hp' hq => ?_, X.entries.trans h.entries,
    X.literals.trans h.literals, X.forks.trans h.forks⟩
  · have hpD : p ∉ D := fun hpD => by
      obtain ⟨q, hq, -⟩ := hD p hpD hp hp'
      simp [hn] at hq
    rw [h.cells p hp hp' (hw p hp hp' hpD ▸ hn), X.keep p (hp'.trans_le hhi) hpD]
  · by_cases hpD : p ∈ D
    · obtain ⟨q', hq', hpt⟩ := hD p hpD hp hp'
      rw [hq, Option.some.injEq] at hq'
      exact hq' ▸ hpt
    · exact h.points p q hp hp' (hw p hp hp' hpD ▸ hq)

/-- The part of the code that an earlier state has laid down. -/
theorem part {P P' : Exits} {D Q : List ℕ} (h : Agrees T code w lo hi s')
    (X : Extends s s' P P' D Q) {lo' hi' : ℕ} (hlo : lo ≤ lo') (hhi : hi' ≤ s.numBytes)
    (hhi' : hi' ≤ hi) (hD : ∀ p ∈ D, p < lo' ∨ hi' ≤ p) {w' : ℕ → Option ℕ}
    (hw : ∀ p, lo' ≤ p → p < hi' → w' p = w p) : Agrees T code w' lo' hi' s :=
  ((h.sub hlo hhi').back X hhi hD).congr hw

/-- With exits as the open labels, a part of an earlier state has the exits of then. -/
theorem cut {P P' : Exits} {D Q : List ℕ} {bottoms : ℕ → ℕ}
    (h : Agrees T code (fun p => (P' p).map bottoms) lo s'.numBytes s')
    (X : Extends s s' P P' D Q) {lo' hi' : ℕ} (hlo : lo ≤ lo') (hhi : hi' ≤ s.numBytes)
    (hD : ∀ p ∈ D, p < lo' ∨ hi' ≤ p) : Agrees T code (fun p => (P p).map bottoms) lo' hi' s :=
  h.part X hlo hhi (hhi.trans X.le) hD fun p _ hp => by rw [X.exits p (hp.trans_le hhi)]

/-- Code without exits of its own. -/
theorem straight {P : Exits} {bottoms : ℕ → ℕ} {s₀ : State}
    (h : Agrees T code (fun p => (P p).map bottoms) lo hi s) (hP : Pending s₀ P)
    (hlo : s₀.numBytes ≤ lo) : Seg T code lo hi s :=
  h.seg fun p hp _ => by simp [hP.unset (hlo.trans hp)]

/-- A label that was defined on the way. -/
theorem defined {P P' : Exits} {Q S : List ℕ} {bottoms : ℕ → ℕ} {label : Option ℕ} {k : ℕ}
    (h : Agrees T code (fun p => (P' p).map bottoms) lo s'.numBytes s')
    (X : Extends (defineLabel label s) s' P P' [] Q) (hL : Linked s.code S label) (hk : k ∈ S)
    (hP : P k = none) (hc : s.num = tally s.entries) (hlo : lo ≤ k) :
    Points code k s.numBytes := by
  have hlt : k < (defineLabel label s).numBytes := by
    rw [defineLabel_numBytes]
    exact hL.lt hk
  have he := X.entries.trans h.entries
  rw [State.entries, defineLabel, defineChain_entries] at he
  refine .defined hL hk hc he ?_
  rw [h.cells k hlo (hlt.trans_le X.le) (by simp [X.exits k hlt, hP]),
    X.keep k hlt List.not_mem_nil]

end Agrees

/-- The loops around a statement once the targets of their exits are known. -/
def loopsAt (φ : ℕ → ℕ) (bottoms : ℕ → ℕ) : List Loop → List LoopAt
  | [] => []
  | l::ls =>
    ⟨l.id, φ l.topLabel.value, l.topStack, φ (bottoms ls.length), l.bottomStack⟩::
      loopsAt φ bottoms ls

theorem loopsAt_outline {ls ls' : List Loop} (φ bottoms : ℕ → ℕ)
    (h : ls.map Loop.outline = ls'.map Loop.outline) :
    loopsAt φ bottoms ls = loopsAt φ bottoms ls' := by
  induction ls generalizing ls' with
  | nil => rw [List.map_eq_nil_iff.mp h.symm]
  | cons l ls ih =>
    cases ls' with
    | nil => cases h
    | cons l' ls' =>
      rw [List.map_cons, List.map_cons, List.cons.injEq] at h
      simp only [Loop.outline, Prod.mk.injEq] at h
      obtain ⟨⟨h1, h2, h3, h4⟩, h5⟩ := h
      have hlen : ls.length = ls'.length := by simpa using congrArg List.length h5
      simp only [loopsAt, h1, h2, h3, h4, hlen, ih h5]

theorem loopsAt_bottoms (ls : List Loop) (φ : ℕ → ℕ) {bottoms bottoms' : ℕ → ℕ}
    (h : ∀ i < ls.length, bottoms i = bottoms' i) :
    loopsAt φ bottoms ls = loopsAt φ bottoms' ls := by
  induction ls with
  | nil => rfl
  | cons l ls ih =>
    rw [List.length_cons] at h
    rw [loopsAt, loopsAt, h _ (Nat.lt_succ_self _), ih fun i hi => h i (by omega)]

/-- The loop that an exit names. -/
theorem findLoop_at {exit : Option ℕ} {loops : List Loop} {i : ℕ} (φ bottoms : ℕ → ℕ)
    (h : findLoop exit loops = .ok i) :
    ∃ l j, loops[i]? = some l ∧ i+j+1 = loops.length ∧
      findLoopAt exit (loopsAt φ bottoms loops) =
        some ⟨l.id, φ l.topLabel.value, l.topStack, φ (bottoms j), l.bottomStack⟩ := by
  cases exit with
  | none =>
    cases loops with
    | nil => simp [findLoop] at h
    | cons l ls =>
      simp only [findLoop, List.isEmpty_cons, Bool.false_eq_true, if_false, Except.ok.injEq] at h
      subst h
      exact ⟨l, ls.length, rfl, by simp, rfl⟩
  | some id =>
    rw [findLoop] at h
    split at h
    · rename_i k hk
      rw [Except.ok.injEq] at h
      subst h
      induction loops generalizing k with
      | nil => simp at hk
      | cons l ls ih =>
        rw [List.findIdx?_cons] at hk
        cases hl : l.id == some id with
        | true =>
          rw [hl, if_pos rfl, Option.some.injEq] at hk
          subst hk
          exact ⟨l, ls.length, rfl, by simp, by simp [findLoopAt, loopsAt, hl]⟩
        | false =>
          rw [hl, if_neg Bool.false_ne_true, Option.map_eq_some_iff] at hk
          obtain ⟨k', hk', rfl⟩ := hk
          obtain ⟨l', j, h1, h2, h3⟩ := ih k' hk'
          refine ⟨l', j, by simpa using h1, by simp; omega, ?_⟩
          simpa [findLoopAt, loopsAt, hl] using h3
    · cases h

end LambdaMoo.CodeGen
