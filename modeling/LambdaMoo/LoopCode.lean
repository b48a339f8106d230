import LambdaMoo.Exits
import LambdaMoo.StandingStmt

/-!
# Code of loops and exits

The parts of statements that define the exits of a loop or leave some for
later: `break` and `continue`, the three loops, `fork` and the handlers of a
`try`-`except` statement.
-/

set_option autoImplicit false

namespace LambdaMoo.CodeGen

section
variable {T : Tables} {v : Vec} {φ : ℕ → ℕ} {code : List Cell}

theorem emitExit_grows {s₀ s : State} {Q : List ℕ} (K : Grows s₀ s Q) (exit : Option ℕ) :
    Grows s₀ (emitExit exit s) Q := by
  cases exit with
  | none => exact K.extended .exit
  | some id => exact (K.extended .exitId).varRef id

/-- The instruction of a `break` or `continue`, whose label comes last. -/
theorem exit_code (hl : Laid v φ code) (exit : Option ℕ) {k q : ℕ} {s : State}
    (hS : Seg T code s.numBytes (addStackRef k (emitExit exit s)).numBytes
      (addStackRef k (emitExit exit s)))
    (hp : Points code (addStackRef k (emitExit exit s)).numBytes q) :
    v.instr s.curStack (.exit exit k (φ q)) (φ s.numBytes)
      (φ ((addStackRef k (emitExit exit s)).numBytes+1)) := by
  cases exit with
  | none =>
    simp only [emitExit] at hS hp ⊢
    obtain ⟨hk, hS⟩ := hS.stackRef (by simp) (by simp)
    obtain ⟨hb, -⟩ := hS.extended le_rfl (by simp)
    simp only [addStackRef_numBytes, emitExtendedByte_numBytes] at hk hp ⊢
    obtain ⟨hf, hd⟩ := hl.decodeExtended hb
    refine ⟨?_, hd⟩
    simp [hf, Bytecodes.decodeExtended, hl.readStack hk, Bytecodes.withLabel, hl.readLabel hp]
  | some id =>
    simp only [emitExit] at hS hp ⊢
    obtain ⟨hk, hS⟩ := hS.stackRef (by simp; omega) (by simp)
    obtain ⟨hi, hS⟩ := hS.varRef (by simp) (by simp)
    obtain ⟨hb, -⟩ := hS.extended le_rfl (by simp)
    simp only [addStackRef_numBytes, addVarRef_numBytes, emitExtendedByte_numBytes] at hk hi hp ⊢
    obtain ⟨hf, hd⟩ := hl.decodeExtended hb
    refine ⟨?_, hd⟩
    simp [hf, Bytecodes.decodeExtended, hl.readId hi, hl.readStack hk, Bytecodes.withLabel,
      hl.readLabel hp]

/-- What is proved of each statement: the exits pending after it, and that
finished code which agrees with it is the code of the statement. -/
def Placed (T : Tables) (s s' : State) (P : Exits) (C : Vec → (ℕ → ℕ) → (ℕ → ℕ) → Prop) : Prop :=
  ∃ P', Extends s s' P P' [] [] ∧ ∀ v φ code bottoms, Laid v φ code →
    Agrees T code (fun p => (P' p).map bottoms) s.numBytes s'.numBytes s' → C v φ bottoms

theorem generateContinue_placed {exit : Option ℕ} {s s' : State} {P : Exits}
    (hP : Pending s P) (hc : s.num = tally s.entries) (h : generateContinue exit s = .ok s') :
    Placed T s s' P fun v φ bottoms => ∃ l, findLoopAt exit (loopsAt φ bottoms s.loops) = some l ∧
      v.instr s.curStack (.exit exit l.topStack l.top) (φ s.numBytes) (φ s'.numBytes) := by
  simp only [generateContinue, bind_ok] at h
  obtain ⟨i, hi, h⟩ := h
  have hloops : (emitExit exit s).loops = s.loops := by cases exit <;> rfl
  rw [hloops] at hi h
  obtain ⟨l, j, hl, -, -⟩ := findLoop_at id id hi
  simp only [hl, pure_ok] at h
  subst h
  have K := (emitExit_grows (.refl s hc) exit).stackRef l.topStack
  have hr := (hP.tops l (List.mem_of_getElem? hl)).mono K.entries
  have X := (K.knownLabel l.topLabel (.inl hr)).extends hP
  refine ⟨P, X, fun v φ code bottoms hlaid hA => ?_⟩
  obtain ⟨l', j', hl', -, hf⟩ := findLoop_at φ bottoms hi
  rw [hl, Option.some.injEq] at hl'
  subst hl'
  refine ⟨_, hf, ?_⟩
  have hS := hA.seg fun p hp _ => by simp [hP.unset hp]
  obtain ⟨hk, hS⟩ := hS.knownLabel K.le (by simp)
  rw [addKnownLabel_numBytes]
  exact exit_code hlaid exit hS ⟨_, hk, rfl, hr.mono hS.entries⟩

theorem generateBreak_placed {exit : Option ℕ} {s s' : State} {P : Exits}
    (hP : Pending s P) (hc : s.num = tally s.entries) (h : generateBreak exit s = .ok s') :
    Placed T s s' P fun v φ bottoms => ∃ l, findLoopAt exit (loopsAt φ bottoms s.loops) = some l ∧
      v.instr s.curStack (.exit exit l.bottomStack l.bottom) (φ s.numBytes) (φ s'.numBytes) := by
  simp only [generateBreak, bind_ok] at h
  obtain ⟨i, hi, h⟩ := h
  have hloops : (emitExit exit s).loops = s.loops := by cases exit <;> rfl
  rw [hloops] at hi h
  obtain ⟨l, j, hl, hj, -⟩ := findLoop_at id id hi
  simp only [hl, pure_ok] at h
  subst h
  have K := (emitExit_grows (.refl s hc) exit).stackRef l.bottomStack
  have L := K.linkedLabel l.bottomLabel
  generalize hst : addStackRef l.bottomStack (emitExit exit s) = st at K L ⊢
  have hst' : st.loops = s.loops := K.loops
  obtain ⟨S, hS, hmem⟩ := hP.chain i j l hl hj
  have hlt : ∀ p ∈ S, p < s.numBytes := fun p hp => hP.pos_lt (by simp [(hmem p).mp hp])
  have hPk : P st.numBytes = none := hP.unset K.le
  have hlab : (addLinkedLabel l.bottomLabel st).2.code[st.numBytes]? =
      some (.label ⟨0, st.num, l.bottomLabel⟩) := by
    simp [addLinkedLabel, addKnownLabel, State.numBytes]
  have hloops' : (addLinkedLabel l.bottomLabel st).2.loops = s.loops := L.loops
  have hle := K.le
  refine ⟨Function.update P st.numBytes (some j), ⟨L.entries, fun p hp _ => L.keep p hp, L.counted,
    ?_, L.literals, L.forks, fun p hp => Function.update_of_ne (by omega) _ _, ⟨?_, ?_, ?_⟩, ?_⟩,
    ?_⟩
  · obtain ⟨hlen, rfl⟩ := List.getElem?_eq_some_iff.mp hl
    simp only [hloops', List.map_set]
    exact (congrArg _ (List.getElem_map Loop.outline).symm).trans (List.set_getElem_self (by simpa))
  · intro i' j' l' hl' hj'
    simp only [hloops', List.length_set] at hl' hj'
    by_cases hii : i = i'
    · subst hii
      have hlen : i < s.loops.length := by omega
      rw [List.getElem?_set_self hlen, Option.some.injEq] at hl'
      obtain rfl : j = j' := by omega
      subst hl'
      refine ⟨st.numBytes::S, ⟨rfl, fun p hp => (hlt p hp).trans_le hle, _, hlab,
        hS.unchanged hlt L.keep⟩, fun p => ?_⟩
      by_cases hp : p = st.numBytes
      · simp [hp]
      · rw [Function.update_of_ne hp, ← hmem p, List.mem_cons, or_iff_right hp]
    · rw [List.getElem?_set_ne hii] at hl'
      obtain ⟨S', hS', hmem'⟩ := hP.chain i' j' l' hl' hj'
      have hlt' : ∀ p ∈ S', p < s.numBytes := fun p hp => hP.pos_lt (by simp [(hmem' p).mp hp])
      refine ⟨S', hS'.unchanged hlt' L.keep, fun p => ?_⟩
      by_cases hp : p = st.numBytes
      · have hjj : j ≠ j' := by omega
        simp only [hp, Function.update_self, Option.some.injEq, hjj, iff_false]
        exact fun h => by have := hlt' _ h; omega
      · rw [Function.update_of_ne hp, hmem' p]
  · intro p i' hp'
    simp only [hloops', List.length_set]
    by_cases hp : p = st.numBytes
    · simp only [hp, Function.update_self, Option.some.injEq] at hp'
      omega
    · rw [Function.update_of_ne hp] at hp'
      exact hP.lt p i' hp'
  · intro l' hl'
    simp only [hloops'] at hl'
    rcases List.mem_or_eq_of_mem_set hl' with hl' | rfl
    · exact (hP.tops l' hl').mono L.entries
    · exact (hP.tops l (List.mem_of_getElem? hl)).mono L.entries
  · intro p l' hp hl'
    rcases L.labels p l' (hp.resolve_right List.not_mem_nil) hl' with h | h
    · rw [List.mem_singleton.mp h, Function.update_self]
      exact .inr (.inl (by simp))
    · exact .inr (.inr h)
  · intro v φ code bottoms hlaid hA
    obtain ⟨l', j', hl', hj', hf⟩ := findLoop_at φ bottoms hi
    rw [hl, Option.some.injEq] at hl'
    obtain rfl : j = j' := by omega
    subst hl'
    refine ⟨_, hf, ?_⟩
    have hn := addLinkedLabel_numBytes l.bottomLabel st
    have hpt : Points code st.numBytes (bottoms j) :=
      hA.points _ _ hle (show _ < (addLinkedLabel l.bottomLabel st).2.numBytes by omega) (by simp)
    have hS : Seg T code s.numBytes st.numBytes st := by
      refine ⟨fun p hp hp' => ?_, List.IsPrefix.trans ?_ hA.entries, hA.literals, hA.forks⟩
      · rw [hA.cells p hp (show _ < (addLinkedLabel l.bottomLabel st).2.numBytes by omega)
          (by simp [Function.update_of_ne hp'.ne, hP.unset hp])]
        exact (Grows.refl st K.counted).linkedLabel l.bottomLabel |>.keep p hp'
      · exact ((Grows.refl st K.counted).linkedLabel l.bottomLabel).entries
    subst hst
    exact hn ▸ exit_code hlaid exit hS hpt

/-- A loop has been entered: its first exit is the label of its test. -/
theorem enterLoop_pending {s s' : State} {P : Exits} {k : ℕ} (K : Grows s s' [k])
    (hP : Pending s P) (ho : Open s' [k]) (hk : s.numBytes ≤ k) (id : Option ℕ) {top : Label}
    (htop : Resolved s'.entries top) (topStack bottomStack : ℕ) :
    Pending (enterLoop id top topStack (some k) bottomStack s')
      (Function.update P k (some s.loops.length)) := by
  have hPk : P k = none := hP.unset hk
  have X := K.extends hP
  refine ⟨fun i j l hl hj => ?_, fun p i hp => ?_, fun l hl => ?_⟩
  · simp only [enterLoop, K.loops, List.length_cons] at hl hj
    cases i with
    | zero =>
      rw [List.getElem?_cons_zero, Option.some.injEq] at hl
      obtain rfl : j = s.loops.length := by omega
      subst hl
      refine ⟨[k], ho.linked, fun p => ?_⟩
      by_cases hp : p = k
      · simp [hp]
      · simp only [List.mem_singleton, hp, false_iff, Function.update_of_ne hp]
        exact fun h => Nat.lt_irrefl _ (hP.lt p _ h)
    | succ i =>
      rw [List.getElem?_cons_succ, ← K.loops] at hl
      obtain ⟨S, hS, hmem⟩ := X.pending.chain i j l hl (by rw [K.loops]; omega)
      refine ⟨S, hS, fun p => ?_⟩
      by_cases hp : p = k
      · have : s.loops.length ≠ j := by omega
        simp [hp, hmem, hPk, this]
      · rw [Function.update_of_ne hp, hmem p]
  · simp only [enterLoop, K.loops, List.length_cons]
    by_cases h : p = k
    · rw [h, Function.update_self, Option.some.injEq] at hp
      omega
    · rw [Function.update_of_ne h] at hp
      have := hP.lt p i hp
      omega
  · simp only [enterLoop, List.mem_cons] at hl
    rcases hl with rfl | hl
    · exact htop
    · exact X.pending.tops l hl

/-- The end of a loop defines its chain of exits. -/
theorem exitLoop_extends {s s₁ t : State} {P P' : Exits} {k : ℕ} (K : Grows s s₁ [k])
    (hP : Pending s P) (hk : s.numBytes ≤ k) (hk' : k < s₁.numBytes) {id : Option ℕ} {top : Label}
    {topStack bottomStack : ℕ}
    (X : Extends (enterLoop id top topStack (some k) bottomStack s₁) t
      (Function.update P k (some s.loops.length)) P' [] []) :
    ∃ S, Linked t.code S (exitLoop t).1 ∧ (∀ p, p ∈ S ↔ P' p = some s.loops.length) ∧ k ∈ S ∧
      Extends s (defineLabel (exitLoop t).1 (exitLoop t).2) P
        (fun p => if P' p = some s.loops.length then none else P' p) [] [] := by
  have hlen : t.loops.length = s.loops.length+1 := by
    simpa [enterLoop, K.loops] using congrArg List.length X.loops
  obtain ⟨l, ls, hls⟩ := List.exists_cons_of_length_eq_add_one hlen
  rw [hls, List.length_cons, Nat.add_right_cancel_iff] at hlen
  obtain ⟨S, hS, hmem⟩ := X.pending.chain 0 s.loops.length l (by simp [hls]) (by simp [hls, hlen])
  have hPk : P' k = some s.loops.length := by
    rw [X.exits k (by simpa [enterLoop, State.numBytes] using hk'), Function.update_self]
  have hP' : ∀ p < s₁.numBytes, p ≠ k → P' p = P p := fun p hp hpk => by
    rw [X.exits p (by simpa [enterLoop, State.numBytes] using hp), Function.update_of_ne hpk]
  have hge : ∀ p ∈ S, s.numBytes ≤ p := fun p hp => by
    by_contra hlt
    have hle := K.le
    have := hP' p (by omega) (by omega)
    rw [(hmem p).mp hp] at this
    exact Nat.lt_irrefl _ (hP.lt p _ this.symm)
  have hexit : exitLoop t = (l.bottomLabel, { t with loops := ls }) := by simp [exitLoop, hls]
  have hlinked : Linked ({ t with loops := ls } : State).code S l.bottomLabel := hS
  have hout : ls.map Loop.outline = s.loops.map Loop.outline := by
    have := congrArg List.tail X.loops
    simpa [hls, enterLoop, K.loops] using this
  refine ⟨S, hexit ▸ hS, hmem, (hmem k).mpr hPk, ?_⟩
  rw [hexit]
  have he : (defineLabel l.bottomLabel { t with loops := ls }).entries = t.entries := by
    simp [State.entries, defineLabel, defineChain_entries]
  have hpre : s.entries <+: t.entries := K.entries.trans X.entries
  refine ⟨he ▸ hpre, fun p hp _ => ?_, counted_define _ X.counted, hout, K.literals.trans X.literals,
    K.forks.trans X.forks, fun p hp => ?_, ⟨fun i j m hm hj => ?_, fun p i hp => ?_, ?_⟩, ?_⟩
  · rw [(defineLabel_get hlinked p).1 fun h => by have := hge p h; omega]
    exact (X.keep p (show p < s₁.numBytes by have := K.le; omega) List.not_mem_nil).trans
      (K.keep p hp)
  · have hle := K.le
    rw [hP' p (by omega) (by omega), if_neg]
    exact fun h => Nat.lt_irrefl _ (hP.lt p _ h)
  · simp only [defineLabel] at hm hj
    obtain ⟨S', hS', hmem'⟩ := X.pending.chain (i+1) j m (by simpa [hls] using hm)
      (by simp [hls]; omega)
    have hne : s.loops.length ≠ j := by omega
    refine ⟨S', hS'.congr fun p hp => (defineLabel_get hlinked p).1 fun h => ?_, fun p => ?_⟩
    · have h1 := (hmem p).mp h
      rw [(hmem' p).mp hp, Option.some.injEq] at h1
      exact hne h1.symm
    · rw [hmem' p]
      by_cases h : P' p = some s.loops.length
      · simp [h, hne]
      · rw [if_neg h]
  · by_cases h : P' p = some s.loops.length
    · simp [h] at hp
    · rw [if_neg h] at hp
      have := X.pending.lt p i hp
      have : i ≠ s.loops.length := fun hi => h (hi ▸ hp)
      simp only [hls, List.length_cons, defineLabel] at *
      omega
  · intro m hm
    exact he ▸ X.pending.tops m (hls ▸ List.mem_cons_of_mem _ hm)
  · intro p m hp hm
    have hp := hp.resolve_right List.not_mem_nil
    rw [he]
    by_cases hpS : p ∈ S
    · obtain ⟨next, hd⟩ := (defineLabel_get hlinked p).2 hpS
      rw [hd, Option.some.injEq, Cell.label.injEq] at hm
      subst hm
      refine .inr (.inr (.inl ⟨by simp [State.numBytes, State.entries], ?_⟩))
      have : ({ t with loops := ls } : State).numBytes = t.entries.length := by
        simp [State.numBytes, State.entries]
      rw [this, List.take_length]
      exact X.counted
    · rw [(defineLabel_get hlinked p).1 hpS] at hm
      have hpn : P' p ≠ some s.loops.length := fun h => hpS ((hmem p).mpr h)
      rw [if_neg hpn]
      by_cases hlt : s₁.numBytes ≤ p
      · exact (X.labels p m (.inl hlt) hm).imp_left (by simp)
      · have hpk : p ≠ k := fun h => hpS (h ▸ (hmem k).mpr hPk)
        have hm' := (X.keep p (Nat.lt_of_not_le hlt) List.not_mem_nil).symm.trans hm
        rcases K.labels p m hp hm' with h | h
        · exact absurd (List.mem_singleton.mp h) hpk
        · exact .inr (.inr (h.mono X.entries))

/-- A loop whose test ends with the label `k` and whose code goes back to `top`. -/
theorem loop_placed {s s₁ s₂ : State} {P : Exits} {k : ℕ} (K : Grows s s₁ [k])
    (hP : Pending s P) (ho : Open s₁ [k]) (hk : s.numBytes ≤ k) {id : Option ℕ} {top : Label}
    (htop : Resolved s₁.entries top) {topStack bottomStack : ℕ}
    {C : Vec → (ℕ → ℕ) → (ℕ → ℕ) → Prop}
    (hbody : ∀ P, Pending (enterLoop id top topStack (some k) bottomStack s₁) P →
      Placed T (enterLoop id top topStack (some k) bottomStack s₁) s₂ P C) :
    let s' := defineLabel (exitLoop s₂).1 (addKnownLabel top (emitOp .jump (exitLoop s₂).2))
    ∃ P', Extends s s' P P' [] [] ∧ ∀ v φ code bottoms, Laid v φ code →
      Agrees T code (fun p => (P' p).map bottoms) s.numBytes s'.numBytes s' →
      Points code k s'.numBytes ∧ Seg T code s.numBytes k s₁ ∧
      C v φ (Function.update bottoms s.loops.length s'.numBytes) ∧
      v.instr s₂.curStack (.jump (φ top.value)) (φ s₂.numBytes) (φ s'.numBytes) := by
  obtain ⟨P₂, X, hC⟩ := hbody _ (enterLoop_pending K hP ho hk id htop topStack bottomStack)
  have hk' : k < s₁.numBytes := ho.2 k List.mem_cons_self |>.elim fun _ h =>
    (List.getElem?_eq_some_iff.mp h.1).1
  have htop₂ := htop.mono X.entries
  have Kj := (Grows.refl s₂ X.counted).op .jump
  have Kt := Kj.knownLabel top (.inl (htop₂.mono Kj.entries))
  have Xt := X.trans (Kt.extends X.pending) (by simp) (R := []) (by simp)
  obtain ⟨S, hS, hmem, hkS, XF⟩ := exitLoop_extends K hP hk hk' Xt
  have hn : (defineLabel (exitLoop s₂).1 (addKnownLabel top (emitOp .jump (exitLoop s₂).2))).numBytes
      = s₂.numBytes+2 := by
    rw [defineLabel_numBytes, addKnownLabel_numBytes, emitOp_numBytes]
    rfl
  refine ⟨_, XF, fun v φ code bottoms hl hA => ?_⟩
  have hge : ∀ p ∈ S, s.numBytes ≤ p := fun p hp => by
    by_contra hlt
    have := XF.exits p (Nat.lt_of_not_le hlt)
    have hk := K.le
    have hpk : p ≠ k := by omega
    have h1 := X.exits p (show p < s₁.numBytes by omega)
    rw [(hmem p).mp hp, Function.update_of_ne hpk] at h1
    exact Nat.lt_irrefl _ (hP.lt p _ h1.symm)
  have hlt : ∀ p ∈ S, p < s₂.numBytes+2 := fun p hp => by
    have := X.pending.pos_lt (p := p) (by simp [(hmem p).mp hp])
    omega
  have hpre : (addKnownLabel top (emitOp .jump s₂)).entries <+: code.map Cell.entry := by
    have := hA.entries
    rw [State.entries, defineLabel, defineChain_entries] at this
    exact this
  have hpoint : ∀ p ∈ S, Points code p (s₂.numBytes+2) := fun p hp => by
    have h := hA.cells p (hge p hp) (hn ▸ hlt p hp) (by simp [(hmem p).mp hp])
    have := Points.defined hS hp Xt.counted hpre h
    rwa [addKnownLabel_numBytes, emitOp_numBytes] at this
  have hcell : ∀ p, s.numBytes ≤ p → p < s₂.numBytes+2 → P₂ p = none →
      code[p]? = (addKnownLabel top (emitOp .jump s₂)).code[p]? := fun p hp hp' hn' => by
    rw [hA.cells p hp (hn ▸ hp') (by simp [hn'])]
    exact (defineLabel_get hS p).1 fun h => by simp [(hmem p).mp h] at hn'
  have hle := X.le
  have hle' : s₁.numBytes ≤ s₂.numBytes := hle
  refine ⟨hn ▸ hpoint k hkS, ⟨fun p hp hp' => ?_, (X.entries.trans Kt.entries).trans hpre,
    X.literals.trans hA.literals, X.forks.trans hA.forks⟩, hC v φ code _ hl ?_, ?_⟩
  · have hp₂ : P₂ p = none := by
      rw [X.exits p (show p < s₁.numBytes by omega), Function.update_of_ne (by omega), hP.unset hp]
    rw [hcell p hp (by omega) hp₂, Kt.keep p (by omega)]
    exact X.keep p (show p < s₁.numBytes by omega) List.not_mem_nil
  · have hs₁ : (enterLoop id top topStack (some k) bottomStack s₁).numBytes = s₁.numBytes := rfl
    have hsn := K.le
    refine ⟨fun p hp hp' hw => ?_, fun p q hp hp' hw => ?_, Kt.entries.trans hpre, hA.literals,
      hA.forks⟩
    · rw [hcell p (by omega) (by omega) (by simpa using hw), Kt.keep p (by omega)]
    · rw [Option.map_eq_some_iff] at hw
      obtain ⟨i, hi, rfl⟩ := hw
      by_cases hin : i = s.loops.length
      · rw [hin, Function.update_self, hn]
        exact hpoint p ((hmem p).mpr (hin ▸ hi))
      · rw [Function.update_of_ne hin]
        exact hA.points p _ (by omega) (by omega) (by simp [hi, hin])
  · have h0 := hcell s₂.numBytes (by have := K.le; omega) (by omega) (X.pending.unset le_rfl)
    have h1 := hcell (s₂.numBytes+1) (by have := K.le; omega) (by omega)
      (X.pending.unset (by omega))
    rw [hn]
    refine hl.opLabel (o := .jump) (h0.trans ?_) ⟨top, h1.trans ?_, rfl, (htop₂.mono Kt.entries).mono hpre⟩
      fun _ => rfl
    · simp [addKnownLabel, emitOp, emitByte, State.numBytes]
    · simp [addKnownLabel, emitOp, emitByte, State.numBytes]

@[simp] theorem enterLoop_numBytes (id : Option ℕ) (top : Label) (topStack : ℕ) (bottom : Option ℕ)
    (bottomStack : ℕ) (s : State) :
    (enterLoop id top topStack bottom bottomStack s).numBytes = s.numBytes := rfl

@[simp] theorem captureLabel_value (s : State) : (captureLabel s).value = s.numBytes := rfl

theorem captureLabel_resolved {s : State} (hc : s.num = tally s.entries) :
    Resolved s.entries (captureLabel s) := by
  refine ⟨by simp [captureLabel], ?_⟩
  simp only [captureLabel, ← State.entries_length, List.take_length]
  exact hc

theorem loopsAt_enter {s s₁ : State} (h : s₁.loops = s.loops) (φ bottoms : ℕ → ℕ) (q : ℕ)
    (id : Option ℕ) (top : Label) (topStack : ℕ) (bottom : Option ℕ) (bottomStack : ℕ) :
    loopsAt φ (Function.update bottoms s.loops.length q)
        (enterLoop id top topStack bottom bottomStack s₁).loops =
      ⟨id, φ top.value, topStack, φ q, bottomStack⟩::loopsAt φ bottoms s.loops := by
  rw [enterLoop, loopsAt, h, Function.update_self]
  congr 1
  exact loopsAt_bottoms _ φ fun i hi => Function.update_of_ne hi.ne _ _

/-- A loop over a list or a range, whose two values are on the stack at `s₁`. -/
theorem forLoop_placed {s s₁ s₂ : State} {P : Exits} (K : Grows s s₁ []) (hP : Pending s P)
    {o : Opcode} {i : ℕ → ℕ → Instr}
    (hi : ∀ bc pos, Bytecodes.decode bc o pos = bc.withIdLabel pos i) (id : ℕ)
    {topStack bottomStack : ℕ} {C : Vec → (ℕ → ℕ) → (ℕ → ℕ) → Prop}
    (hbody : ∀ P, let k := (addVarRef id (emitOp o s₁)).numBytes
      let s' := enterLoop (some id) (captureLabel s₁) topStack (some k) bottomStack
        (addLabel (addVarRef id (emitOp o s₁))).2
      s'.num = tally s'.entries → Pending s' P → Placed T s' s₂ P C) :
    let s' := popStack 2 (defineLabel (exitLoop s₂).1
      (addKnownLabel (captureLabel s₁) (emitOp .jump (exitLoop s₂).2)))
    ∃ P', Extends s s' P P' [] [] ∧ ∀ v φ code bottoms, Laid v φ code →
      Agrees T code (fun p => (P' p).map bottoms) s.numBytes s'.numBytes s' →
      Seg T code s.numBytes s₁.numBytes s₁ ∧
      v.instr s₁.curStack (i id (φ s'.numBytes)) (φ s₁.numBytes) (φ (s₁.numBytes+3)) ∧
      C v φ (Function.update bottoms s.loops.length s'.numBytes) ∧
      v.instr s₂.curStack (.jump (φ s₁.numBytes)) (φ s₂.numBytes) (φ s'.numBytes) := by
  have Kv := (K.op o).varRef id
  have htop := (captureLabel_resolved K.counted).mono
    (((Grows.refl s₁ K.counted).op o).varRef id).label.entries
  obtain ⟨P', X, hC⟩ := loop_placed (T := T) Kv.label hP (Open.nil _).label Kv.le htop
    fun P hP => hbody P Kv.label.counted hP
  have Xp := ((Grows.refl _ X.counted).pop 2).extends X.pending
  refine ⟨P', X.trans Xp (by simp) (by simp), fun v φ code bottoms hl hA => ?_⟩
  obtain ⟨hp, hS, c, j⟩ := hC v φ code bottoms hl
    (hA.part Xp le_rfl le_rfl le_rfl (by simp) fun _ _ _ => rfl)
  obtain ⟨hv, hS⟩ := (hS.back (Grows.refl _ Kv.counted).label le_rfl).varRef (K.op o).le (by simp)
  obtain ⟨hb, hS⟩ := hS.op K.le (by simp)
  rw [emitOp_numBytes] at hv
  rw [addVarRef_numBytes, emitOp_numBytes] at hp
  exact ⟨hS, hl.opIdLabel hb hv hp (hi v.bc), c, j⟩

theorem emitLoopTest_grows {s₀ s : State} {Q : List ℕ} (K : Grows s₀ s Q) (id : Option ℕ) :
    Grows s₀ (emitLoopTest id s) Q := by
  cases id with
  | none => exact K.op .while
  | some id => exact (K.extended .whileId).varRef id

theorem loopTest_code (hl : Laid v φ code) (id : Option ℕ) {s : State} {lo q : ℕ}
    (hS : Seg T code lo (emitLoopTest id s).numBytes (emitLoopTest id s)) (hlo : lo ≤ s.numBytes)
    (hp : Points code (emitLoopTest id s).numBytes q) :
    CodeTest v s.curStack id (φ q) (φ s.numBytes) (φ ((emitLoopTest id s).numBytes+1)) ∧
      Seg T code lo s.numBytes s := by
  cases id with
  | none =>
    simp only [emitLoopTest, emitOp_numBytes] at hS hp ⊢
    obtain ⟨hb, hS⟩ := hS.op hlo (by simp)
    exact ⟨hl.opLabel hb hp fun _ => rfl, hS⟩
  | some id =>
    simp only [emitLoopTest, addVarRef_numBytes, emitExtendedByte_numBytes] at hS hp ⊢
    obtain ⟨hv, hS⟩ := hS.varRef (by simp; omega) (by simp)
    obtain ⟨hb, hS⟩ := hS.extended hlo (by simp)
    rw [emitExtendedByte_numBytes] at hv
    obtain ⟨hf, hd⟩ := hl.decodeExtended hb
    refine ⟨⟨?_, hd⟩, hS⟩
    simp [hf, Bytecodes.decodeExtended, Bytecodes.withIdLabel, hl.readId hv, hl.readLabel hp]

theorem initState_counted {g : GState} : (initState g).num = tally (initState g).entries := rfl

theorem initState_pending (g : GState) : Pending (initState g) fun _ => none :=
  ⟨fun i j l hl => by simp [initState] at hl, fun p i hp => by simp at hp,
    fun l hl => by simp [initState] at hl⟩

theorem forkId_grows {s₀ s : State} {Q : List ℕ} (K : Grows s₀ s Q) (id : Option ℕ) :
    Grows s₀ (addForkId id s) Q := by
  cases id with
  | none => exact K
  | some id => exact K.varRef id

theorem Seg.fork {s : State} {b : Finished} {lo hi : ℕ} (h : Seg T code lo hi (addFork b s))
    (hlo : lo ≤ s.numBytes) (hhi : s.numBytes < hi) :
    (code[s.numBytes]? = some (.operand .fork s.gstate.forkVectors.length) ∧
      T.forkVectors[s.gstate.forkVectors.length]? = some b) ∧ Seg T code lo s.numBytes s := by
  have hcode : (addFork b s).code = s.code++[.operand .fork s.gstate.forkVectors.length] := rfl
  have hf : (addFork b s).gstate.forkVectors = s.gstate.forkVectors++[b] := rfl
  obtain ⟨hc, hS⟩ := h.last hcode List.prefix_rfl (hf ▸ List.prefix_append _ _) hlo hhi
  exact ⟨⟨hc, prefix_get (hf ▸ h.forks) (by simp)⟩, hS⟩

theorem Seg.tables {s : State} {g : GState} {lo hi : ℕ}
    (h : Seg T code lo hi { s with gstate := g }) (hlit : s.gstate.literals <+: g.literals)
    (hforks : s.gstate.forkVectors <+: g.forkVectors) : Seg T code lo hi s :=
  ⟨h.cells, h.entries, hlit.trans h.literals, hforks.trans h.forks⟩

theorem fork_code (hl : Laid v φ code) (id : Option ℕ) {s s₁ : State} {bc : Finished} {lo : ℕ}
    (hS : Seg T code lo (addForkId id (addFork bc s₁)).numBytes (addForkId id (addFork bc s₁)))
    (hc : s₁.code = (emitOp (if id.isSome then .forkWithId else .fork) s).code)
    (hlo : lo ≤ s.numBytes) :
    T.forkVectors[s₁.gstate.forkVectors.length]? = some bc ∧ Seg T code lo s₁.numBytes s₁ ∧
    v.instr s.curStack (.fork s₁.gstate.forkVectors.length id) (φ s.numBytes)
      (φ (addForkId id (addFork bc s₁)).numBytes) := by
  have hn : s₁.numBytes = s.numBytes+1 := by simp [State.numBytes, hc, emitOp, emitByte]
  have hcell : s₁.code[s.numBytes]? =
      some (.byte (if id.isSome then Opcode.forkWithId else .fork).toNat s.curStack) := by
    simp [hc, emitOp, emitByte, State.numBytes]
  cases id with
  | none =>
    simp only [addForkId] at hS ⊢
    obtain ⟨⟨hf, hbc⟩, hS⟩ := hS.fork (by omega) (by simp)
    have hb := (hS.cells _ hlo (by omega)).trans hcell
    obtain ⟨hd, hdep⟩ := hl.decode (o := .fork) hb
    rw [hn] at hf
    refine ⟨hbc, hS, ?_, hdep⟩
    rw [hd, addFork_numBytes, hn]
    simp [Bytecodes.decode, hl.readFork hf]
  | some id =>
    simp only [addForkId] at hS ⊢
    obtain ⟨hv, hS⟩ := hS.varRef (by simp; omega) (by simp)
    obtain ⟨⟨hf, hbc⟩, hS⟩ := hS.fork (by omega) (by simp)
    have hb := (hS.cells _ hlo (by omega)).trans hcell
    obtain ⟨hd, hdep⟩ := hl.decode (o := .forkWithId) hb
    rw [addFork_numBytes, hn] at hv
    rw [hn] at hf
    refine ⟨hbc, hS, ?_, hdep⟩
    rw [hd, addVarRef_numBytes, addFork_numBytes, hn]
    simp [Bytecodes.decode, hl.readFork hf, hl.readId hv]

theorem generateCodes_grows (codes : ArgList) {s₀ s s' : State} {Q : List ℕ} (K : Grows s₀ s Q)
    (h : generateCodes codes s = .ok s') : Grows s₀ s' Q := by
  cases codes with
  | nil =>
    rw [generateCodes, codesOr, Except.ok.injEq] at h
    exact h ▸ (K.op _).push 1
  | cons kind expr next => exact generateArgList_grows _ K h

theorem generateCodes_code (hl : Laid v φ code) (codes : ArgList)
    (he : codes.accepts false = true) {s s' : State} {a : Account} {d m lo : ℕ}
    {frames : List Frame} (t : Standing s a d m none frames) (hc : s.num = tally s.entries)
    (h : generateCodes codes s = .ok s') (hS : Seg T code lo s'.numBytes s')
    (hlo : lo ≤ s.numBytes) :
    CodeCodes T v d none codes (φ s.numBytes) (φ s'.numBytes) ∧ Seg T code lo s.numBytes s := by
  cases codes with
  | nil =>
    rw [generateCodes, codesOr, Except.ok.injEq] at h
    subst h
    rw [pushStack_numBytes, emitOp_numBytes] at hS ⊢
    obtain ⟨hb, hS⟩ := hS.push.op hlo (by omega)
    exact ⟨t.cur ▸ hl.op hb (decode_optimNum _ (by decide)), hS⟩
  | cons kind expr next => exact generateArgList_code hl (.cons kind expr next) he t hc h hS hlo

theorem pushHandlers_grows (arms : ExceptArms) {s₀ s s' : State} {Q labels : List ℕ}
    (K : Grows s₀ s Q) (h : pushHandlers arms s = .ok (labels, s')) :
    Grows s₀ s' (labels++Q) ∧ labels.length = arms.length ∧ ∀ k ∈ labels, s.numBytes ≤ k := by
  match arms with
  | .nil =>
    simp only [pushHandlers, Except.ok.injEq, Prod.mk.injEq] at h
    obtain ⟨rfl, rfl⟩ := h
    exact ⟨K, rfl, by simp⟩
  | .cons id codes stmt next =>
    simp only [pushHandlers, bind_ok, pure_ok, Prod.mk.injEq] at h
    obtain ⟨s1, h1, ⟨labels', s2⟩, h2, rfl, rfl⟩ := h
    have B1 := (generateCodes_grows codes (.refl s K.counted) h1).extended .pushLabel
    have K1 := ((generateCodes_grows codes K h1).extended .pushLabel).label.push 1
    obtain ⟨K2, hlen, hge⟩ := pushHandlers_grows next K1 h2
    refine ⟨K2.weaken _ (by simp; grind), by simp [ExceptArms.length, hlen], fun k hk => ?_⟩
    rcases List.mem_cons.mp hk with rfl | hk
    · exact B1.le
    · exact (B1.label.push 1).le.trans (hge k hk)

theorem pushHandlers_open (arms : ExceptArms) {s s' : State} {labels : List ℕ}
    (hc : s.num = tally s.entries) (h : pushHandlers arms s = .ok (labels, s')) :
    Open s' labels := by
  match arms with
  | .nil =>
    simp only [pushHandlers, Except.ok.injEq, Prod.mk.injEq] at h
    obtain ⟨rfl, rfl⟩ := h
    exact .nil s
  | .cons id codes stmt next =>
    simp only [pushHandlers, bind_ok, pure_ok, Prod.mk.injEq] at h
    obtain ⟨s1, h1, ⟨labels', s2⟩, h2, rfl, rfl⟩ := h
    have B1 := (generateCodes_grows codes (.refl s hc) h1).extended .pushLabel
    have B2 := (B1.label.push 1)
    obtain ⟨K2, -, hge⟩ := pushHandlers_grows next (.refl _ B2.counted) h2
    have ho := pushHandlers_open next B2.counted h2
    have hlt := addLabel_lt (emitExtendedByte .pushLabel s1)
    refine ⟨List.nodup_cons.mpr ⟨fun h => ?_, ho.1⟩, fun k hk => ?_⟩
    · have := hge _ h
      rw [pushStack_numBytes] at this
      rw [addLabel_pos] at this
      omega
    · rcases List.mem_cons.mp hk with rfl | hk
      · exact ⟨_, (K2.keep _ hlt).trans (addLabel_get _), rfl⟩
      · exact ho.2 k hk

theorem pushHandlers_code (hl : Laid v φ code) (arms : ExceptArms) {loops : List (Option ℕ)}
    (ha : arms.accepts loops = true) {s s' : State} {labels qs : List ℕ} {a : Account} {d m : ℕ}
    {frames : List Frame} (t : Standing s a d m none frames) (hc : s.num = tally s.entries)
    (h : pushHandlers arms s = .ok (labels, s'))
    (hcells : ∀ p, s.numBytes ≤ p → p < s'.numBytes → p ∉ labels → code[p]? = s'.code[p]?)
    (hA : Seg T code s'.numBytes s'.numBytes s')
    (hqs : List.Forall₂ (Points code) labels qs) :
    CodeHandlers T v d arms (qs.map φ) (φ s.numBytes) (φ s'.numBytes) := by
  match arms with
  | .nil =>
    simp only [pushHandlers, Except.ok.injEq, Prod.mk.injEq] at h
    obtain ⟨rfl, rfl⟩ := h
    cases hqs
    exact ⟨rfl, rfl⟩
  | .cons id codes stmt next =>
    simp only [ExceptArms.accepts, Bool.and_eq_true] at ha
    simp only [pushHandlers, bind_ok, pure_ok, Prod.mk.injEq] at h
    obtain ⟨s1, h1, ⟨labels', s2⟩, h2, rfl, rfl⟩ := h
    dsimp only at hA hcells
    cases hqs with
    | cons hq hqs =>
      have t1 := generateCodes_standing codes ha.1.1.1.2 t h1
      have t1' := ((t1.extended .pushLabel).label none).push 1
      have G1 := generateCodes_grows codes (.refl s hc) h1
      have B2 := (G1.extended .pushLabel).label.push 1
      obtain ⟨K2, -, hge⟩ := pushHandlers_grows next (.refl _ B2.counted) h2
      have hle1 := G1.le
      have hle2 := K2.le
      simp only [pushStack_numBytes, addLabel_numBytes, emitExtendedByte_numBytes] at hge hle2
      have c2 := pushHandlers_code hl next ha.2 t1' B2.counted h2
        (fun p hp hp' hpl => hcells p (by simp at hp; omega) hp'
          (List.not_mem_cons_of_ne_of_not_mem (by simp at hp ⊢; omega) hpl)) hA hqs
      have hS : Seg T code s.numBytes (s1.numBytes+2) (emitExtendedByte .pushLabel s1) := by
        have hS2 : Seg T code s.numBytes (s1.numBytes+2) s2 := by
          refine ⟨fun p hp hp' => hcells p hp (by omega) fun hm => ?_, hA.entries, hA.literals,
            hA.forks⟩
          rcases List.mem_cons.mp hm with rfl | hm
          · simp at hp'
          · have := hge p hm
            omega
        exact (hS2.back K2 (by simp)).push.back
          ((Grows.refl _ (G1.extended .pushLabel).counted).label) (by simp)
      obtain ⟨hb, hS⟩ := hS.extended hle1 (by simp)
      obtain ⟨c1, -⟩ := generateCodes_code hl codes ha.1.1.1.2 t hc h1 hS le_rfl
      rw [addLabel_pos, emitExtendedByte_numBytes] at hq
      simp only [pushStack_numBytes, addLinkedLabel_numBytes, emitExtendedByte_numBytes] at c2
      exact ⟨_, _, _, _, rfl, c1, t1.cur ▸ hl.extendedLabel hb hq fun _ => rfl, c2⟩

theorem emitArmId_grows {s₀ s : State} {Q : List ℕ} (K : Grows s₀ s Q) (id : Option ℕ) :
    Grows s₀ (emitArmId id s) Q := by
  cases id with
  | none => exact K
  | some id => exact K.varOp true id

theorem armId_code (hl : Laid v φ code) (id : Option ℕ) {s : State} {lo : ℕ}
    (hS : Seg T code lo (emitArmId id s).numBytes (emitArmId id s)) (hlo : lo ≤ s.numBytes) :
    CodeArmId v s.curStack id (φ s.numBytes) (φ (emitArmId id s).numBytes) ∧
      Seg T code lo s.numBytes s := by
  cases id with
  | none => exact ⟨rfl, hS⟩
  | some id => exact codeVarOp hl hS hlo le_rfl

theorem Placed.straight {s s' : State} {P : Exits} {C : Vec → (ℕ → ℕ) → (ℕ → ℕ) → Prop}
    (hP : Pending s P) (K : Grows s s' [])
    (h : ∀ v φ code bottoms, Laid v φ code → Seg T code s.numBytes s'.numBytes s' →
      C v φ bottoms) : Placed T s s' P C :=
  ⟨P, K.extends hP, fun v φ code bottoms hl hA =>
    h v φ code bottoms hl (hA.seg fun p hp _ => by simp [hP.unset hp])⟩

end
end LambdaMoo.CodeGen
