import LambdaMoo.Labels
import LambdaMoo.Listing

/-!
# Segments of finished code

How a finished vector reads where its cells are those of a state of the
generator: each emitter, from the last one back, gives the instruction that
is decoded there.
-/

set_option autoImplicit false

namespace LambdaMoo.CodeGen

@[simp] theorem emitByte_numBytes (b : ℕ) (s : State) : (emitByte b s).numBytes = s.numBytes+1 := by
  simp [emitByte, State.numBytes]
@[simp] theorem emitOp_numBytes (o : Opcode) (s : State) :
    (emitOp o s).numBytes = s.numBytes+1 := emitByte_numBytes _ _
@[simp] theorem emitExtendedByte_numBytes (o : ExtendedOpcode) (s : State) :
    (emitExtendedByte o s).numBytes = s.numBytes+2 := by simp [emitExtendedByte]
@[simp] theorem addLinkedLabel_numBytes (next : Option ℕ) (s : State) :
    (addLinkedLabel next s).2.numBytes = s.numBytes+1 := by
  simp [addLinkedLabel, addKnownLabel, State.numBytes]
@[simp] theorem addLabel_numBytes (s : State) : (addLabel s).2.numBytes = s.numBytes+1 :=
  addLinkedLabel_numBytes none s
@[simp] theorem addKnownLabel_numBytes (l : Label) (s : State) :
    (addKnownLabel l s).numBytes = s.numBytes+1 := by simp [addKnownLabel, State.numBytes]
@[simp] theorem addVarRef_numBytes (slot : ℕ) (s : State) :
    (addVarRef slot s).numBytes = s.numBytes+1 := by simp [addVarRef, addFixup, State.numBytes]
@[simp] theorem addStackRef_numBytes (i : ℕ) (s : State) :
    (addStackRef i s).numBytes = s.numBytes+1 := by simp [addStackRef, addFixup, State.numBytes]
@[simp] theorem addLiteral_numBytes (x : Var) (s : State) :
    (addLiteral x s).numBytes = s.numBytes+1 := by simp [addLiteral, addFixup, State.numBytes]
@[simp] theorem addFork_numBytes (b : Finished) (s : State) :
    (addFork b s).numBytes = s.numBytes+1 := by simp [addFork, addFixup, State.numBytes]
@[simp] theorem pushStack_numBytes (n : ℕ) (s : State) : (pushStack n s).numBytes = s.numBytes := rfl
@[simp] theorem popStack_numBytes (n : ℕ) (s : State) : (popStack n s).numBytes = s.numBytes := rfl
@[simp] theorem defineLabel_numBytes (l : Option ℕ) (s : State) :
    (defineLabel l s).numBytes = s.numBytes := by
  have := congrArg List.length (congrArg Account.entries (defineLabel_account l s))
  simpa [State.account, State.numBytes] using this

theorem internLiteral_get (x : Var) (literals : List Var) :
    (internLiteral x literals).2[(internLiteral x literals).1]? = some x := by
  simp only [internLiteral]
  split
  · rename_i h
    simp [h]
  · rename_i h
    have hlt := lt_of_le_of_ne List.findIdx_le_length h
    have hp := List.findIdx_getElem (w := hlt)
    simp only [Bool.and_eq_true] at hp
    rw [List.getElem?_eq_getElem hlt, ← equality_eq _ _ hp.2]

theorem prefix_get {α : Type} {xs ys : List α} (h : xs <+: ys) {i : ℕ} {x : α}
    (hx : xs[i]? = some x) : ys[i]? = some x := by
  obtain ⟨t, rfl⟩ := h
  rw [List.getElem?_append_left (List.getElem?_eq_some_iff.mp hx).1, hx]

/-- The bytes of a vector for the cells of finished code, where `φ` is the
offset of each position. -/
structure Laid (v : Vec) (φ : ℕ → ℕ) (code : List Cell) : Prop where
  byte : ∀ p n d, code[p]? = some (.byte n d) → n < 256 ∧
    v.bc.vector[φ p]? = some (UInt8.ofNat n) ∧ v.depth (φ p) = some d ∧ φ (p+1) = φ p+1
  operand : ∀ p kind value, code[p]? = some (.operand kind value) →
    readBytes v.bc.vector (φ p) (Bytecodes.fixupSize v.bc kind) = some value ∧
    φ (p+1) = φ p+Bytecodes.fixupSize v.bc kind
  label : ∀ p l, code[p]? = some (.label l) → Resolved (code.map Cell.entry) l →
    readBytes v.bc.vector (φ p) v.bc.numbytesLabel = some (φ l.value) ∧
    φ (p+1) = φ p+v.bc.numbytesLabel
  pseudo : ∀ p value, code[p]? = some (.label (pseudoLabel value)) → value ≤ 1 →
    readBytes v.bc.vector (φ p) v.bc.numbytesLabel = some value ∧
    φ (p+1) = φ p+v.bc.numbytesLabel

/-- A label cell that points at a position. -/
def Points (code : List Cell) (k q : ℕ) : Prop :=
  ∃ l, code[k]? = some (.label l) ∧ l.value = q ∧ Resolved (code.map Cell.entry) l

theorem Points.defined {code : List Cell} {s : State} {S : List ℕ} {label : Option ℕ} {k : ℕ}
    (hL : Linked s.code S label) (hk : k ∈ S) (hc : s.num = tally s.entries)
    (he : s.entries <+: code.map Cell.entry) (h : code[k]? = (defineLabel label s).code[k]?) :
    Points code k s.numBytes := by
  obtain ⟨next, hd⟩ := (defineLabel_get hL k).2 hk
  refine ⟨_, h.trans hd, rfl, Resolved.mono ⟨by simp, ?_⟩ he⟩
  simp only [← State.entries_length, List.take_length]
  exact hc

/-- The finished code agrees with a state on the cells from `lo` up to `hi`. -/
structure Seg (T : Tables) (code : List Cell) (lo hi : ℕ) (s : State) : Prop where
  cells : ∀ p, lo ≤ p → p < hi → code[p]? = s.code[p]?
  entries : s.entries <+: code.map Cell.entry
  literals : s.gstate.literals <+: T.literals
  forks : s.gstate.forkVectors <+: T.forkVectors

namespace Seg
variable {T : Tables} {code : List Cell} {lo hi : ℕ} {s s' : State}

theorem sub (h : Seg T code lo hi s) {lo' hi' : ℕ} (hlo : lo ≤ lo') (hhi : hi' ≤ hi) :
    Seg T code lo' hi' s :=
  ⟨fun p hp hp' => h.cells p (hlo.trans hp) (hp'.trans_le hhi), h.entries, h.literals, h.forks⟩

theorem back (h : Seg T code lo hi s') {P : List ℕ} (K : Grows s s' P) (hhi : hi ≤ s.numBytes) :
    Seg T code lo hi s :=
  ⟨fun p hp hp' => (h.cells p hp hp').trans (K.keep p (hp'.trans_le hhi)),
    K.entries.trans h.entries, K.literals.trans h.literals, K.forks.trans h.forks⟩

theorem undefine {k : ℕ} {labels : List ℕ} (h : Seg T code lo hi (defineLabel (some k) s))
    (ho : Open s (k::labels)) (hk : k < lo ∨ hi ≤ k) : Seg T code lo hi s := by
  obtain ⟨l, hl, hn⟩ := ho.2 k List.mem_cons_self
  refine ⟨fun p hp hp' => ?_, ?_, h.literals, h.forks⟩
  · rw [h.cells p hp hp', (defineLabel_get (Linked.single hl hn) p).1 (by simp; omega)]
  · simpa [State.entries, defineLabel, defineChain_entries] using h.entries

/-- Where a label is defined: its cell, the code before it and the code after it. -/
theorem labelled {k : ℕ} {labels : List ℕ} (h : Seg T code lo hi (defineLabel (some k) s))
    (ho : Open s (k::labels)) (hc : s.num = tally s.entries) (hlo : lo ≤ k) (hhi : k < hi) :
    Points code k s.numBytes ∧ Seg T code lo k s ∧ Seg T code (k+1) hi s := by
  obtain ⟨l, hl, hn⟩ := ho.2 k List.mem_cons_self
  have he : s.entries <+: code.map Cell.entry := by
    simpa [State.entries, defineLabel, defineChain_entries] using h.entries
  exact ⟨.defined (Linked.single hl hn) List.mem_cons_self hc he (h.cells k hlo hhi),
    (h.sub le_rfl hhi.le).undefine ho (.inr le_rfl),
    (h.sub (by omega) le_rfl).undefine ho (.inl (by omega))⟩

theorem pop {n : ℕ} (h : Seg T code lo hi (popStack n s)) : Seg T code lo hi s :=
  ⟨h.cells, h.entries, h.literals, h.forks⟩

theorem push {n : ℕ} (h : Seg T code lo hi (pushStack n s)) : Seg T code lo hi s :=
  ⟨h.cells, h.entries, h.literals, h.forks⟩

theorem restore {old : Option ℕ} (h : Seg T code lo hi (restoreStackTop old s)) :
    Seg T code lo hi s := ⟨h.cells, h.entries, h.literals, h.forks⟩

theorem save (h : Seg T code lo hi (saveStackTop s).2) : Seg T code lo hi s :=
  ⟨h.cells, h.entries, h.literals, h.forks⟩

theorem byte {n : ℕ} (h : Seg T code lo hi (emitByte n s)) (hlo : lo ≤ s.numBytes)
    (hhi : s.numBytes < hi) :
    code[s.numBytes]? = some (.byte n s.curStack) ∧ Seg T code lo s.numBytes s := by
  refine ⟨(h.cells _ hlo hhi).trans (by simp [emitByte, State.numBytes]), fun p hp hp' => ?_, ?_,
    h.literals, h.forks⟩
  · rw [h.cells p hp (hp'.trans hhi)]
    exact List.getElem?_append_left hp'
  · refine List.IsPrefix.trans ?_ h.entries
    simp [State.entries, emitByte]

theorem op {o : Opcode} (h : Seg T code lo hi (emitOp o s)) (hlo : lo ≤ s.numBytes)
    (hhi : s.numBytes < hi) :
    code[s.numBytes]? = some (.byte o.toNat s.curStack) ∧ Seg T code lo s.numBytes s :=
  h.byte hlo hhi

theorem extended {eop : ExtendedOpcode} (h : Seg T code lo hi (emitExtendedByte eop s))
    (hlo : lo ≤ s.numBytes) (hhi : s.numBytes+1 < hi) :
    (code[s.numBytes]? = some (.byte Opcode.extended.toNat s.curStack) ∧
      code[s.numBytes+1]? = some (.byte eop.toNat s.curStack)) ∧ Seg T code lo s.numBytes s := by
  obtain ⟨h2, h1⟩ := h.byte (by simp; omega) (by simpa using hhi)
  obtain ⟨h1, h0⟩ := h1.op hlo (by simp)
  rw [emitOp_numBytes] at h2
  exact ⟨⟨h1, h2⟩, h0⟩

/-- The last cell of a state that an emitter has just added. -/
theorem last {c : Cell} (h : Seg T code lo hi s') (hcode : s'.code = s.code++[c])
    (hlit : s.gstate.literals <+: s'.gstate.literals)
    (hforks : s.gstate.forkVectors <+: s'.gstate.forkVectors) (hlo : lo ≤ s.numBytes)
    (hhi : s.numBytes < hi) : code[s.numBytes]? = some c ∧ Seg T code lo s.numBytes s := by
  refine ⟨(h.cells _ hlo hhi).trans (by simp [hcode, State.numBytes]), fun p hp hp' => ?_, ?_,
    hlit.trans h.literals, hforks.trans h.forks⟩
  · rw [h.cells p hp (hp'.trans hhi), hcode]
    exact List.getElem?_append_left hp'
  · refine List.IsPrefix.trans ?_ h.entries
    simp [State.entries, hcode]

theorem varRef {slot : ℕ} (h : Seg T code lo hi (addVarRef slot s)) (hlo : lo ≤ s.numBytes)
    (hhi : s.numBytes < hi) :
    code[s.numBytes]? = some (.operand .varRef slot) ∧ Seg T code lo s.numBytes s :=
  h.last rfl List.prefix_rfl List.prefix_rfl hlo hhi

theorem stackRef {index : ℕ} (h : Seg T code lo hi (addStackRef index s)) (hlo : lo ≤ s.numBytes)
    (hhi : s.numBytes < hi) :
    code[s.numBytes]? = some (.operand .stack index) ∧ Seg T code lo s.numBytes s :=
  h.last rfl List.prefix_rfl List.prefix_rfl hlo hhi

theorem knownLabel {l : Label} (h : Seg T code lo hi (addKnownLabel l s)) (hlo : lo ≤ s.numBytes)
    (hhi : s.numBytes < hi) :
    code[s.numBytes]? = some (.label l) ∧ Seg T code lo s.numBytes s :=
  h.last rfl List.prefix_rfl List.prefix_rfl hlo hhi

theorem literal {x : Var} (h : Seg T code lo hi (addLiteral x s)) (hlo : lo ≤ s.numBytes)
    (hhi : s.numBytes < hi) :
    (∃ slot, code[s.numBytes]? = some (.operand .literal slot) ∧ T.literals[slot]? = some x) ∧
      Seg T code lo s.numBytes s := by
  have hlit : s.gstate.literals <+: (addLiteral x s).gstate.literals :=
    ((Grows.refl { s with num := tally s.entries } rfl).literal x).literals
  have hcode : (addLiteral x s).code =
      s.code++[.operand .literal (internLiteral x s.gstate.literals).1] := rfl
  obtain ⟨hc, hs⟩ := h.last hcode hlit List.prefix_rfl hlo hhi
  exact ⟨⟨_, hc, prefix_get h.literals (internLiteral_get x _)⟩, hs⟩

end Seg

section
variable {T : Tables} {v : Vec} {φ : ℕ → ℕ} {code : List Cell}

namespace Laid

theorem decode (hl : Laid v φ code) {p d : ℕ} {o : Opcode}
    (h : code[p]? = some (.byte o.toNat d)) :
    v.bc.fetch (φ p) = v.bc.decode o (φ (p+1)) ∧ v.depth (φ p) = some d := by
  obtain ⟨-, hb, hd, hp⟩ := hl.byte p _ d h
  refine ⟨?_, hd⟩
  have : Opcode.ofByte (UInt8.ofNat o.toNat) = o := Opcode.ofByte_toByte o
  simp [Bytecodes.fetch, hb, this, hp]

theorem decodeExtended (hl : Laid v φ code) {p d : ℕ} {eop : ExtendedOpcode}
    (h : code[p]? = some (.byte Opcode.extended.toNat d) ∧
      code[p+1]? = some (.byte eop.toNat d)) :
    v.bc.fetch (φ p) = v.bc.decodeExtended eop (φ (p+2)) ∧ v.depth (φ p) = some d := by
  obtain ⟨hf, hd⟩ := hl.decode h.1
  refine ⟨?_, hd⟩
  obtain ⟨-, hb, -, hp⟩ := hl.byte (p+1) _ d h.2
  have : ExtendedOpcode.ofByte (UInt8.ofNat eop.toNat) = some eop :=
    ExtendedOpcode.ofByte_toByte eop
  have hx : ∀ pos, v.bc.decode .extended pos = v.bc.fetchExtended pos := fun _ => rfl
  rw [hf, hx, Bytecodes.fetchExtended, hb]
  simp [this, hp]

theorem readLabel (hl : Laid v φ code) {k q : ℕ} (h : Points code k q) :
    v.bc.readLabel (φ k) = some (φ q, φ (k+1)) := by
  obtain ⟨l, hk, rfl, hr⟩ := h
  obtain ⟨hb, hp⟩ := hl.label k l hk hr
  simp [Bytecodes.readLabel, hb, hp]

theorem readPseudo (hl : Laid v φ code) {k n : ℕ}
    (h : code[k]? = some (.label (pseudoLabel n))) (hn : n ≤ 1) :
    v.bc.readLabel (φ k) = some (n, φ (k+1)) := by
  obtain ⟨hb, hp⟩ := hl.pseudo k n h hn
  simp [Bytecodes.readLabel, hb, hp]

theorem readByte (hl : Laid v φ code) {p n d : ℕ} (h : code[p]? = some (.byte n d)) :
    v.bc.readByte (φ p) = some (n, φ (p+1)) := by
  obtain ⟨hn, hb, -, hp⟩ := hl.byte p n d h
  simp [Bytecodes.readByte, hb, hp, Nat.mod_eq_of_lt hn]

theorem readId (hl : Laid v φ code) {p slot : ℕ} (h : code[p]? = some (.operand .varRef slot)) :
    v.bc.readId (φ p) = some (slot, φ (p+1)) := by
  obtain ⟨hb, hp⟩ := hl.operand p _ _ h
  simp only [Bytecodes.fixupSize] at hb hp
  simp [Bytecodes.readId, hb, hp]

theorem readLiteral (hl : Laid v φ code) {p slot : ℕ}
    (h : code[p]? = some (.operand .literal slot)) :
    v.bc.readLiteral (φ p) = some (slot, φ (p+1)) := by
  obtain ⟨hb, hp⟩ := hl.operand p _ _ h
  simp only [Bytecodes.fixupSize] at hb hp
  simp [Bytecodes.readLiteral, hb, hp]

theorem readFork (hl : Laid v φ code) {p f : ℕ} (h : code[p]? = some (.operand .fork f)) :
    v.bc.readFork (φ p) = some (f, φ (p+1)) := by
  obtain ⟨hb, hp⟩ := hl.operand p _ _ h
  simp only [Bytecodes.fixupSize] at hb hp
  simp [Bytecodes.readFork, hb, hp]

theorem readStack (hl : Laid v φ code) {p i : ℕ} (h : code[p]? = some (.operand .stack i)) :
    v.bc.readStack (φ p) = some (i, φ (p+1)) := by
  obtain ⟨hb, hp⟩ := hl.operand p _ _ h
  simp only [Bytecodes.fixupSize] at hb hp
  simp [Bytecodes.readStack, hb, hp]

/-- An instruction without operands. -/
theorem op (hl : Laid v φ code) {p d : ℕ} {o : Opcode} {i : Instr}
    (h : code[p]? = some (.byte o.toNat d))
    (hi : ∀ pos, v.bc.decode o pos = some (i, pos)) : v.instr d i (φ p) (φ (p+1)) := by
  obtain ⟨hf, hd⟩ := hl.decode h
  exact ⟨hf.trans (hi _), hd⟩

theorem extended (hl : Laid v φ code) {p d : ℕ} {eop : ExtendedOpcode} {i : Instr}
    (h : code[p]? = some (.byte Opcode.extended.toNat d) ∧ code[p+1]? = some (.byte eop.toNat d))
    (hi : ∀ pos, v.bc.decodeExtended eop pos = some (i, pos)) :
    v.instr d i (φ p) (φ (p+2)) := by
  obtain ⟨hf, hd⟩ := hl.decodeExtended h
  exact ⟨hf.trans (hi _), hd⟩

/-- An instruction with a label. -/
theorem opLabel (hl : Laid v φ code) {p d q : ℕ} {o : Opcode} {i : ℕ → Instr}
    (h : code[p]? = some (.byte o.toNat d)) (hq : Points code (p+1) q)
    (hi : ∀ pos, v.bc.decode o pos = v.bc.withLabel pos i) :
    v.instr d (i (φ q)) (φ p) (φ (p+2)) := by
  obtain ⟨hf, hd⟩ := hl.decode h
  refine ⟨?_, hd⟩
  rw [hf, hi, Bytecodes.withLabel, hl.readLabel hq]
  rfl

theorem extendedLabel (hl : Laid v φ code) {p d q : ℕ} {eop : ExtendedOpcode} {i : ℕ → Instr}
    (h : code[p]? = some (.byte Opcode.extended.toNat d) ∧ code[p+1]? = some (.byte eop.toNat d))
    (hq : Points code (p+2) q)
    (hi : ∀ pos, v.bc.decodeExtended eop pos = v.bc.withLabel pos i) :
    v.instr d (i (φ q)) (φ p) (φ (p+3)) := by
  obtain ⟨hf, hd⟩ := hl.decodeExtended h
  refine ⟨?_, hd⟩
  rw [hf, hi, Bytecodes.withLabel, hl.readLabel hq]
  rfl

/-- An instruction with a variable. -/
theorem opId (hl : Laid v φ code) {p d slot : ℕ} {o : Opcode} {i : ℕ → Instr}
    (h : code[p]? = some (.byte o.toNat d)) (hs : code[p+1]? = some (.operand .varRef slot))
    (hi : ∀ pos, v.bc.decode o pos = (v.bc.readId pos).map fun r => (i r.1, r.2)) :
    v.instr d (i slot) (φ p) (φ (p+2)) := by
  obtain ⟨hf, hd⟩ := hl.decode h
  refine ⟨?_, hd⟩
  rw [hf, hi, hl.readId hs]
  rfl

theorem opIdLabel (hl : Laid v φ code) {p d slot q : ℕ} {o : Opcode} {i : ℕ → ℕ → Instr}
    (h : code[p]? = some (.byte o.toNat d)) (hs : code[p+1]? = some (.operand .varRef slot))
    (hq : Points code (p+2) q) (hi : ∀ pos, v.bc.decode o pos = v.bc.withIdLabel pos i) :
    v.instr d (i slot (φ q)) (φ p) (φ (p+3)) := by
  obtain ⟨hf, hd⟩ := hl.decode h
  refine ⟨?_, hd⟩
  rw [hf, hi, Bytecodes.withIdLabel, hl.readId hs]
  simp [hl.readLabel hq]

end Laid

theorem decode_gPut (bc : Bytecodes) (pos : ℕ) :
    bc.decode .gPut pos = (bc.readId pos).map fun r => (.put false r.1, r.2) := by
  change (bc.readId pos).bind _ = _
  cases bc.readId pos with
  | none => rfl
  | some r => rfl

theorem decode_gPush (bc : Bytecodes) (pos : ℕ) :
    bc.decode .gPush pos = (bc.readId pos).map fun r => (.push r.1, r.2) := by
  change (bc.readId pos).bind _ = _
  cases bc.readId pos with
  | none => rfl
  | some r => rfl

theorem codeVarOp (hl : Laid v φ code) {isPut : Bool} {slot lo hi : ℕ} {s : State}
    (h : Seg T code lo hi (emitVarOp isPut slot s)) (hlo : lo ≤ s.numBytes)
    (hhi : (emitVarOp isPut slot s).numBytes ≤ hi) :
    v.instr s.curStack (if isPut then .put (isReady slot) slot else .push slot)
      (φ s.numBytes) (φ (emitVarOp isPut slot s).numBytes) ∧ Seg T code lo s.numBytes s := by
  unfold emitVarOp at h hhi ⊢
  by_cases hs : slot < numReadyVars
  · simp only [hs, dite_true] at h hhi ⊢
    rw [emitOp_numBytes] at hhi ⊢
    obtain ⟨hb, h⟩ := h.op hlo (by omega)
    refine ⟨hl.op hb fun pos => ?_, h⟩
    have hr : isReady slot = true := by simp [isReady, hs]
    cases isPut with
    | true =>
      rw [hr]
      rfl
    | false => rfl
  · simp only [hs, dite_false] at h hhi ⊢
    rw [addVarRef_numBytes, emitOp_numBytes] at hhi ⊢
    obtain ⟨hv, h⟩ := h.varRef (by simp; omega) (by simp; omega)
    obtain ⟨hb, h⟩ := h.op hlo (by simp)
    rw [emitOp_numBytes] at hv
    refine ⟨?_, h⟩
    cases isPut with
    | true =>
      have : isReady slot = false := by simpa [isReady] using hs
      rw [this]
      exact hl.opId hb hv (decode_gPut v.bc)
    | false => exact hl.opId hb hv (decode_gPush v.bc)

theorem decode_optimNum (bc : Bytecodes) {n : Num} (hn : inOptimNumRange n = true) (pos : ℕ) :
    bc.decode (optimNumToOpcode n) pos = some (.num n, pos) := by
  obtain ⟨k, hk, hr⟩ := optim_num_roundtrip n hn
  have ho : bc.decode (.optimNum k) pos = some (.num (opcodeToOptimNum k), pos) := rfl
  rw [hk, ho, hr]

theorem emitVar_literal {x : Var} (hx : ∀ n, x = .int n → inOptimNumRange n = false)
    (s : State) : emitVar x s = addLiteral x (emitOp .imm s) := by
  cases x with
  | int n => simp [emitVar, hx n rfl]
  | _ => rfl

theorem codeVar (hl : Laid v φ code) {x : Var} {lo hi : ℕ} {s : State}
    (h : Seg T code lo hi (emitVar x s)) (hlo : lo ≤ s.numBytes)
    (hhi : (emitVar x s).numBytes ≤ hi) :
    CodeVar T v s.curStack x (φ s.numBytes) (φ (emitVar x s).numBytes) := by
  by_cases hx : ∃ n, x = .int n ∧ inOptimNumRange n = true
  · obtain ⟨n, rfl, hn⟩ := hx
    simp only [emitVar, hn, if_true, emitOp_numBytes] at h hhi ⊢
    obtain ⟨hb, -⟩ := h.op hlo (by omega)
    exact .inl ⟨n, rfl, hn, hl.op hb (decode_optimNum _ hn)⟩
  · have hx : ∀ n, x = .int n → inOptimNumRange n = false := by simpa using hx
    rw [emitVar_literal hx] at h hhi ⊢
    simp only [addLiteral_numBytes, emitOp_numBytes] at hhi ⊢
    obtain ⟨⟨slot, hc, hs⟩, h⟩ := h.literal (by simp; omega) (by simp; omega)
    obtain ⟨hb, -⟩ := h.op hlo (by simp)
    rw [emitOp_numBytes] at hc
    obtain ⟨hf, hd⟩ := hl.decode hb
    refine .inr ⟨hx, slot, hs, ?_, hd⟩
    rw [hf]
    change (v.bc.readLiteral _).bind _ = _
    rw [hl.readLiteral hc]
    rfl

theorem codeBinary (hl : Laid v φ code) (op : BinaryOp) {lo hi : ℕ} {s : State}
    (h : Seg T code lo hi (emitEither op.opcode s)) (hlo : lo ≤ s.numBytes)
    (hhi : (emitEither op.opcode s).numBytes ≤ hi) :
    v.instr s.curStack (.binary op) (φ s.numBytes) (φ (emitEither op.opcode s).numBytes) ∧
      Seg T code lo s.numBytes s := by
  cases op <;> simp only [BinaryOp.opcode, emitEither, emitOp_numBytes,
      emitExtendedByte_numBytes] at h hhi ⊢ <;>
    first
    | exact (h.op hlo (by omega)).imp_left fun hb => hl.op hb fun _ => rfl
    | exact (h.extended hlo (by omega)).imp_left fun hb => hl.extended hb fun _ => rfl

theorem codeUnary (hl : Laid v φ code) (op : UnaryOp) {lo hi : ℕ} {s : State}
    (h : Seg T code lo hi (emitEither op.opcode s)) (hlo : lo ≤ s.numBytes)
    (hhi : (emitEither op.opcode s).numBytes ≤ hi) :
    v.instr s.curStack (.unary op) (φ s.numBytes) (φ (emitEither op.opcode s).numBytes) ∧
      Seg T code lo s.numBytes s := by
  cases op <;> simp only [UnaryOp.opcode, emitEither, emitOp_numBytes,
      emitExtendedByte_numBytes] at h hhi ⊢ <;>
    first
    | exact (h.op hlo (by omega)).imp_left fun hb => hl.op hb fun _ => rfl
    | exact (h.extended hlo (by omega)).imp_left fun hb => hl.extended hb fun _ => rfl

theorem storeLvalue_code (hl : Laid v φ code) (lhs : Expr) {s s' : State} {k lo hi : ℕ}
    (hc : s.num = tally s.entries) (hk : s.curStack = k) (h : storeLvalue lhs s = .ok s')
    (hS : Seg T code lo hi s') (hlo : lo ≤ s.numBytes) (hhi : s'.numBytes ≤ hi) :
    CodeStore v k lhs (φ s.numBytes) (φ s'.numBytes) ∧ Seg T code lo s.numBytes s := by
  match lhs with
  | .range base _ _ =>
    rw [storeLvalue] at h
    have G := (Grows.refl s hc).extended .rangeset
    obtain ⟨c, hS⟩ := storeLvalue_code hl base (G.pop 3).counted (congrArg (·-3) hk) h hS
      (hlo.trans (G.pop 3).le) hhi
    obtain ⟨hb, hS⟩ := hS.pop.extended hlo (by simp)
    rw [popStack_numBytes, emitExtendedByte_numBytes] at c
    exact ⟨⟨_, hk ▸ hl.extended hb fun _ => rfl, c⟩, hS⟩
  | .index base _ =>
    rw [storeLvalue] at h
    have G := (Grows.refl s hc).op .indexset
    obtain ⟨c, hS⟩ := storeLvalue_code hl base (G.pop 2).counted (congrArg (·-2) hk) h hS
      (hlo.trans (G.pop 2).le) hhi
    obtain ⟨hb, hS⟩ := hS.pop.op hlo (by simp)
    rw [popStack_numBytes, emitOp_numBytes] at c
    exact ⟨⟨_, hk ▸ hl.op hb fun _ => rfl, c⟩, hS⟩
  | .id slot =>
    rw [storeLvalue, Except.ok.injEq] at h
    subst h hk
    exact codeVarOp hl hS hlo hhi
  | .prop _ _ =>
    rw [storeLvalue, Except.ok.injEq] at h
    subst h hk
    rw [popStack_numBytes, emitOp_numBytes] at hhi ⊢
    exact (hS.pop.op hlo hhi).imp_left fun hb => hl.op hb fun _ => rfl
  | .var _ | .verb _ _ _ | .asgn _ _ | .call _ _ | .binary _ _ _ | .and _ _ | .or _ _
  | .unary _ _ | .list _ | .cond _ _ _ | .catch _ _ _ | .length | .scatter _ =>
    simp [storeLvalue] at h

theorem storeRhs_code (hl : Laid v φ code) (lhs : Expr) (hlv : lhs.isLvalue = true)
    {s s' : State} {a : Account} {d m lo : ℕ} {saved : Option ℕ} {frames : List Frame}
    (t : Standing s a (d+lvalueDepth lhs false+1) m saved frames)
    (hc : s.num = tally s.entries) (h : storeRhs lhs s = .ok s')
    (hS : Seg T code lo s'.numBytes s') (hlo : lo ≤ s.numBytes) :
    CodeStoreRhs v d lhs (φ s.numBytes) (φ s'.numBytes) ∧ Seg T code lo s.numBytes s := by
  simp only [storeRhs, bind_ok, pure_ok] at h
  obtain ⟨s1, h1, rfl⟩ := h
  cases hi : Expr.isIndexed lhs with
  | false =>
    rw [hi] at h1
    simp only [hi, CodeStoreRhs] at hS ⊢
    exact storeLvalue_code hl lhs hc t.cur h1 hS hlo le_rfl
  | true =>
    rw [hi] at h1
    simp only [hi, if_true, CodeStoreRhs] at h1 hS ⊢
    have G := (Grows.refl s hc).op .putTemp
    have t1 := storeLvalue_standing lhs hlv (t.op .putTemp) h1
    have hle := (storeLvalue_grows lhs (.refl _ G.counted) h1).le
    simp only [emitOp_numBytes] at hle
    obtain ⟨hb2, hS⟩ := hS.op (by simp; omega) (by simp)
    obtain ⟨hb1, hS⟩ := hS.op (by omega) (by simp)
    rw [emitOp_numBytes] at hb2
    obtain ⟨c, hS⟩ := storeLvalue_code hl lhs G.counted (t.op .putTemp).cur h1 hS (by simp; omega) le_rfl
    obtain ⟨hb0, hS⟩ := hS.op hlo (by simp)
    have hcur : (emitOp .pop s1).curStack = d+1 := t1.cur
    simp only [emitOp_numBytes] at c ⊢
    rw [hcur] at hb2
    rw [t1.cur] at hb1
    rw [t.cur] at hb0
    exact ⟨⟨_, _, _, hl.op hb0 fun _ => rfl, c, hl.op hb1 fun _ => rfl,
      hl.op hb2 fun _ => rfl⟩, hS⟩

theorem counted_define {s : State} (l : Option ℕ) (hc : s.num = tally s.entries) :
    (defineLabel l s).num = tally (defineLabel l s).entries := by
  simpa [State.entries, defineLabel, defineChain_entries] using hc

theorem codeAbove (hl : Laid v φ code) (above : Bool) {o : Opcode} (i : Instr) {s : State}
    {d lo : ℕ} (hd : s.curStack = d)
    (hS : Seg T code lo (if above then pushStack 1 (emitOp o s) else s).numBytes
      (if above then pushStack 1 (emitOp o s) else s)) (hlo : lo ≤ s.numBytes)
    (hi : ∀ pos, v.bc.decode o pos = some (i, pos)) :
    CodeAbove v above d i (φ s.numBytes)
      (φ (if above then pushStack 1 (emitOp o s) else s).numBytes) ∧
      Seg T code lo s.numBytes s := by
  cases above with
  | false => exact ⟨rfl, hS⟩
  | true =>
    simp only [if_true, pushStack_numBytes, emitOp_numBytes] at hS ⊢
    exact (hS.push.op hlo (by omega)).imp_left fun hb => hd ▸ hl.op hb hi

/-- The operands of the targets of a scattering assignment, given where the
code of each default begins. -/
def targetPairs : Scatter → List ℕ → List (ℕ × ℕ)
  | .nil, _ => []
  | .cons .optional id (.some _) next, q::qs => (id, q)::targetPairs next qs
  | .cons .optional id .none next, qs => (id, 1)::targetPairs next qs
  | .cons _ id _ next, qs => (id, 0)::targetPairs next qs

theorem readTargets_cons (bc : Bytecodes) {n pos pos1 pos2 pos3 id label : ℕ}
    {targets : List (ℕ × ℕ)} (h1 : bc.readId pos = some (id, pos1))
    (h2 : bc.readLabel pos1 = some (label, pos2))
    (h3 : bc.readTargets n pos2 = some (targets, pos3)) :
    bc.readTargets (n+1) pos = some ((id, label)::targets, pos3) := by
  simp [Bytecodes.readTargets, h1, h2, h3]

/-- The code has the cells of the targets, except for the labels of defaults. -/
def Targets (code : List Cell) (sc : Scatter) (s : State) : Prop :=
  ∀ p, s.numBytes ≤ p → p < (scatterTargets sc s).2.numBytes →
    p ∉ (scatterTargets sc s).1 → code[p]? = (scatterTargets sc s).2.code[p]?

/-- The two cells of one target, which the later targets keep. -/
theorem Targets.first (next : Scatter) {s b : State} (labels : List ℕ)
    (hb : b.num = tally b.entries)
    (hcell : ∀ p, s.numBytes ≤ p → p < (scatterTargets next b).2.numBytes →
      p ∉ labels++(scatterTargets next b).1 → code[p]? = (scatterTargets next b).2.code[p]?)
    {p : ℕ} (hp : s.numBytes ≤ p) (hpb : p < b.numBytes) (hpl : p ∉ labels) :
    code[p]? = b.code[p]? := by
  have K := scatterTargets_grows next (.refl b hb)
  rw [hcell p hp (hpb.trans_le K.le) fun h => ?_, K.keep p hpb]
  rcases List.mem_append.mp h with h | h
  · exact hpl h
  · have := (scatterTargets_open next hb).2 p h
    omega

/-- A target whose label is the pseudo label `n`. -/
theorem readTargets_pseudo (hl : Laid v φ code) (id n : ℕ) (hn : n ≤ 1) {s : State} {k q : ℕ}
    {targets : List (ℕ × ℕ)}
    (hcell : ∀ p, s.numBytes ≤ p → p < s.numBytes+2 →
      code[p]? = (addPseudoLabel n (addVarRef id s)).code[p]?)
    (h : v.bc.readTargets k (φ (addPseudoLabel n (addVarRef id s)).numBytes) = some (targets, q)) :
    v.bc.readTargets (k+1) (φ s.numBytes) = some ((id, n)::targets, q) := by
  have h0 := hcell s.numBytes le_rfl (by omega)
  have h1 := hcell (s.numBytes+1) (by omega) (by omega)
  refine readTargets_cons _ (hl.readId (h0.trans ?_)) (hl.readPseudo (h1.trans ?_) hn) ?_
  · simp [addPseudoLabel, addKnownLabel, addVarRef, addFixup, State.numBytes]
  · simp [addPseudoLabel, addKnownLabel, addVarRef, addFixup, State.numBytes, pseudoLabel]
  · simpa [addPseudoLabel] using h

theorem scatterTargets_read (hl : Laid v φ code) (sc : Scatter) {s : State} {qs : List ℕ}
    (hc : s.num = tally s.entries) (hcell : Targets code sc s)
    (hqs : List.Forall₂ (Points code) (scatterTargets sc s).1 qs) :
    v.bc.readTargets sc.length (φ s.numBytes) =
      some (targetPairs sc (qs.map φ), φ (scatterTargets sc s).2.numBytes) := by
  have K := Grows.refl s hc
  match sc with
  | .nil => rfl
  | .cons .optional id (.some e) next =>
    have hb := (K.varRef id).label.counted
    cases hqs with
    | cons hq hqs =>
      have h0 : code[s.numBytes]? = (addLabel (addVarRef id s)).2.code[s.numBytes]? :=
        Targets.first next [(addVarRef id s).numBytes] hb hcell le_rfl
          (by rw [addLabel_numBytes, addVarRef_numBytes]; omega) (by simp)
      have ih := scatterTargets_read hl next hb (fun p hp hp' hpl =>
        hcell p (by simp at hp; omega) hp'
          (List.not_mem_cons_of_ne_of_not_mem (by simp at hp ⊢; omega) hpl)) hqs
      rw [addVarRef_numBytes] at hq
      rw [addLabel_numBytes, addVarRef_numBytes] at ih
      refine readTargets_cons _ (hl.readId (h0.trans ?_)) (hl.readLabel hq) ih
      simp [addLabel, addLinkedLabel, addKnownLabel, addVarRef, addFixup, State.numBytes]
  | .cons .optional id .none next =>
    have hb := ((K.varRef id).knownLabel (pseudoLabel 1) (.inr (.inr rfl))).counted
    refine readTargets_pseudo hl id 1 le_rfl (fun p hp hp' =>
      Targets.first next [] hb hcell hp (by simp; omega) (by simp))
      (scatterTargets_read hl next hb (fun p hp => hcell p ?_) hqs)
    simp [addPseudoLabel] at hp
    omega
  | .cons .required id _ next | .cons .rest id _ next =>
    have hb := ((K.varRef id).knownLabel (pseudoLabel 0) (.inr (.inl rfl))).counted
    refine readTargets_pseudo hl id 0 zero_le_one (fun p hp hp' =>
      Targets.first next [] hb hcell hp (by simp; omega) (by simp))
      (scatterTargets_read hl next hb (fun p hp => hcell p ?_) hqs)
    simp [addPseudoLabel] at hp
    omega

theorem Laid.scatter (hl : Laid v φ code) {p d nargs nreq rest done q : ℕ}
    {targets : List (ℕ × ℕ)}
    (h : code[p]? = some (.byte Opcode.extended.toNat d) ∧
      code[p+1]? = some (.byte ExtendedOpcode.scatter.toNat d))
    (h1 : code[p+2]? = some (.byte nargs d)) (h2 : code[p+3]? = some (.byte nreq d))
    (h3 : code[p+4]? = some (.byte rest d))
    (h4 : v.bc.readTargets nargs (φ (p+5)) = some (targets, φ q)) (h5 : Points code q done) :
    v.instr d (.scatter nargs nreq rest targets (φ done)) (φ p) (φ (q+1)) := by
  obtain ⟨hf, hd⟩ := hl.decodeExtended h
  refine ⟨?_, hd⟩
  simp [hf, Bytecodes.decodeExtended, hl.readByte h1, hl.readByte h2, hl.readByte h3, h4,
    Bytecodes.withLabel, hl.readLabel h5]

/-- The defaults keep every cell that was there, their own labels apart. -/
theorem generateDefaults_keep (sc : Scatter) {labels : List ℕ} {s s' : State}
    (hc : s.num = tally s.entries) (ho : Open s labels)
    (hlen : labels.length = Scatter.defaults sc) (h : generateDefaults sc labels s = .ok s') :
    (∀ p < s.numBytes, p ∉ labels → s'.code[p]? = s.code[p]?) ∧ s.entries <+: s'.entries ∧
      s.gstate.literals <+: s'.gstate.literals ∧
      s.gstate.forkVectors <+: s'.gstate.forkVectors := by
  match sc, labels with
  | .nil, _ =>
    rw [generateDefaults, Except.ok.injEq] at h
    subst h
    exact ⟨fun _ _ _ => rfl, List.prefix_rfl, List.prefix_rfl, List.prefix_rfl⟩
  | .cons .optional id (.some expr) next, label::labels =>
    simp only [generateDefaults, bind_ok] at h
    obtain ⟨s1, h1, h2⟩ := h
    have hcD := counted_define (some label) hc
    have B := (((generateExpr_grows expr (.refl _ hcD) h1).varOp true id).op .pop).pop 1
    obtain ⟨ih, he, hlit, hforks⟩ := generateDefaults_keep next B.counted (ho.define.keep B)
      (Nat.succ.inj hlen) h2
    have heD : (defineLabel (some label) s).entries = s.entries := by
      simp [State.entries, defineLabel, defineChain_entries]
    refine ⟨fun p hp hpl => ?_, (heD ▸ B.entries).trans he, B.literals.trans hlit,
      B.forks.trans hforks⟩
    rw [List.mem_cons, not_or] at hpl
    obtain ⟨l, hl, hn⟩ := ho.2 label List.mem_cons_self
    rw [ih p ((by simpa using hp : p < _).trans_le B.le) hpl.2, B.keep p (by simpa using hp),
      (defineLabel_get (Linked.single hl hn) p).1 (by simpa using hpl.1)]
  | .cons .optional id (.some expr) next, [] => simp [Scatter.defaults] at hlen
  | .cons .optional id .none next, _ | .cons .required id _ next, _ | .cons .rest id _ next, _ =>
    simp only [generateDefaults] at h
    exact generateDefaults_keep next hc ho hlen h

/-- A scattering assignment after its header: the label of its end, the code of
its defaults with their labels, the cells of its targets and the code before. -/
theorem Seg.scatter (sc : Scatter) {S s : State} {lo : ℕ} (hc : S.num = tally S.entries)
    (h : generateDefaults sc (scatterTargets sc S).1 (addLabel (scatterTargets sc S).2).2 = .ok s)
    (hS : Seg T code lo s.numBytes (defineLabel (some (scatterTargets sc S).2.numBytes) s))
    (hlo : lo ≤ S.numBytes) :
    Points code (scatterTargets sc S).2.numBytes s.numBytes ∧
      Seg T code ((scatterTargets sc S).2.numBytes+1) s.numBytes s ∧
      (∀ k ∈ (scatterTargets sc S).1, code[k]? = s.code[k]?) ∧ Targets code sc S ∧
      Seg T code lo S.numBytes S := by
  have K := scatterTargets_grows sc (.refl S hc)
  have hlen := scatterTargets_length sc S
  obtain ⟨ho, hge⟩ := scatterTargets_open sc hc
  unfold Targets
  generalize scatterTargets sc S = r at h hS K hlen ho hge ⊢
  obtain ⟨labels, st⟩ := r
  have K' := K.label.weaken (labels++[st.numBytes]) (by grind)
  obtain ⟨G, o⟩ := generateDefaults_grows sc K' ho.label hge hlen h
  obtain ⟨hkeep, hpre, -, -⟩ := generateDefaults_keep sc K.label.counted ho.label.left hlen h
  have hlt := addLabel_lt st
  have hle : (addLabel st).2.numBytes ≤ s.numBytes := by simpa using hpre.length_le
  have hle' : S.numBytes ≤ st.numBytes := K.le
  obtain ⟨hp, hS1, hS2⟩ := hS.labelled o G.counted (hlo.trans hle') (hlt.trans_le hle)
  refine ⟨hp, hS2, fun k hk => ?_, fun p hp hp' hpl => ?_,
    (hS1.sub le_rfl hle').back G le_rfl⟩
  · obtain ⟨l, hl, -⟩ := ho.2 k hk
    exact hS1.cells k (hlo.trans (hge k hk)) (List.getElem?_eq_some_iff.mp hl).1
  · rw [hS1.cells p (hlo.trans hp) hp', hkeep p (hp'.trans hlt) hpl]
    exact (Grows.refl st K.counted).label.keep p hp'

end
end LambdaMoo.CodeGen
