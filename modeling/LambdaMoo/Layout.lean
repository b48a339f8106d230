import Mathlib.Tactic.Ring
import LambdaMoo.ListingStmt

/-!
# Layout

The last loop of `stmt_to_code` stores the cells one after the other, each
with the width chosen for its kind. What a cell stores can be read back at
its offset, modulo its width, and a label that counts the operands before it
has the offset of its target unless wide stack references are before it.
-/

set_option autoImplicit false

namespace LambdaMoo.CodeGen

/-- The sizes that `ref_size` gives. -/
def IsWidth (n : ℕ) : Prop := n = 1 ∨ n = 2 ∨ n = 4

theorem refSize_width (n : ℕ) : IsWidth (refSize n) := by
  unfold refSize IsWidth
  split
  · exact .inl rfl
  · split
    · exact .inr (.inl rfl)
    · exact .inr (.inr rfl)

theorem storeValue_length {n : ℕ} (hn : IsWidth n) (value : ℕ) :
    (storeValue n value).length = n := by
  rcases hn with rfl | rfl | rfl <;> rfl

theorem readBytes_two (v : List Byte) (p : ℕ) {a b : Byte} (h0 : v[p]? = some a)
    (h1 : v[p+1]? = some b) : readBytes v p 2 = some (a.toNat*256+b.toNat) := by
  rw [readBytes, readBytes, readBytes]
  simp [h0, h1]

theorem readBytes_four (v : List Byte) (p : ℕ) {a b c d : Byte} (h0 : v[p]? = some a)
    (h1 : v[p+1]? = some b) (h2 : v[p+2]? = some c) (h3 : v[p+3]? = some d) :
    readBytes v p 4 = some (((a.toNat*256+b.toNat)*256+c.toNat)*256+d.toNat) := by
  rw [readBytes, readBytes, readBytes, readBytes, readBytes]
  simp [h0, h1, h2, h3]

/-- What is stored is read back modulo the width. -/
theorem readBytes_storeValue {n : ℕ} (hn : IsWidth n) (value : ℕ) (before after : List Byte) :
    readBytes (before++(storeValue n value++after)) before.length n = some (value%256^n) := by
  have hget (k : ℕ) : (before++(storeValue n value++after))[before.length+k]? =
      (storeValue n value++after)[k]? := by
    rw [List.getElem?_append_right (by omega), Nat.add_sub_cancel_left]
  rcases hn with rfl | rfl | rfl
  · simp [readBytes, storeValue, UInt8.toNat_ofNat']
  · refine (readBytes_two _ _ (hget 0) (hget 1)).trans ?_
    simp only [UInt8.toNat_ofNat', Nat.shiftRight_eq_div_pow, Option.some.injEq]
    omega
  · refine (readBytes_four _ _ (hget 0) (hget 1) (hget 2) (hget 3)).trans ?_
    simp only [UInt8.toNat_ofNat', Nat.shiftRight_eq_div_pow, Option.some.injEq]
    omega

/-- All operands of a vector have a size that `ref_size` gives. -/
structure Widths (bc : Bytecodes) : Prop where
  fixup : ∀ kind, IsWidth (Bytecodes.fixupSize bc kind)
  label : IsWidth bc.numbytesLabel

theorem chooseWidths_widths (s : State) : Widths (chooseWidths s) := by
  constructor
  · intro kind
    cases kind <;> exact refSize_width _
  · simp only [chooseWidths]
    split
    · exact .inl rfl
    · split
      · exact .inr (.inl rfl)
      · exact .inr (.inr rfl)

def Entry.size (bc : Bytecodes) : Entry → ℕ
  | .byte _ => 1
  | .operand kind _ => Bytecodes.fixupSize bc kind
  | .label => bc.numbytesLabel

/-- The offset of a position of the code in the vector. -/
def offset (bc : Bytecodes) (code : List Cell) (p : ℕ) : ℕ :=
  (((code.take p).map Cell.entry).map (Entry.size bc)).sum

section
variable {bc : Bytecodes}

theorem storeCell_length (hw : Widths bc) (c : Cell) :
    (Bytecodes.storeCell bc c).length = c.entry.size bc := by
  cases c with
  | byte n d => rfl
  | operand kind value => exact storeValue_length (hw.fixup kind) value
  | label l => exact storeValue_length hw.label _

theorem flatMap_length (hw : Widths bc) (code : List Cell) :
    (code.flatMap (Bytecodes.storeCell bc)).length =
      ((code.map Cell.entry).map (Entry.size bc)).sum := by
  induction code with
  | nil => rfl
  | cons c code ih =>
    simp only [List.flatMap_cons, List.length_append, storeCell_length hw, ih, List.map_cons,
      List.sum_cons]

theorem offset_succ {code : List Cell} {p : ℕ} {c : Cell} (h : code[p]? = some c) :
    offset bc code (p+1) = offset bc code p+c.entry.size bc := by
  simp [offset, List.take_add_one, h]

/-- The stored bytes up to a cell, of the cell and after it. -/
theorem stored_split (hw : Widths bc) {code : List Cell} {p : ℕ} {c : Cell}
    (h : code[p]? = some c) :
    ∃ before after, code.flatMap (Bytecodes.storeCell bc) =
      before++(Bytecodes.storeCell bc c++after) ∧ before.length = offset bc code p := by
  obtain ⟨hp, rfl⟩ := List.getElem?_eq_some_iff.mp h
  refine ⟨(code.take p).flatMap (Bytecodes.storeCell bc),
    (code.drop (p+1)).flatMap (Bytecodes.storeCell bc), ?_, flatMap_length hw _⟩
  conv_lhs => rw [← List.take_append_drop p code, List.drop_eq_getElem_cons hp]
  simp only [List.flatMap_append, List.flatMap_cons]

theorem stored_byte (hw : Widths bc) {code : List Cell} {p n d : ℕ}
    (h : code[p]? = some (.byte n d)) :
    (code.flatMap (Bytecodes.storeCell bc))[offset bc code p]? = some (UInt8.ofNat n) := by
  obtain ⟨before, after, hs, hl⟩ := stored_split hw h
  rw [hs, ← hl]
  simp [Bytecodes.storeCell]

theorem stored_operand (hw : Widths bc) {code : List Cell} {p value : ℕ} {kind : FixupKind}
    (h : code[p]? = some (.operand kind value)) :
    readBytes (code.flatMap (Bytecodes.storeCell bc)) (offset bc code p)
      (Bytecodes.fixupSize bc kind) = some (value%256^(Bytecodes.fixupSize bc kind)) := by
  obtain ⟨before, after, hs, hl⟩ := stored_split hw h
  rw [hs, ← hl]
  exact readBytes_storeValue (hw.fixup kind) value before after

theorem stored_label (hw : Widths bc) {code : List Cell} {p : ℕ} {l : Label}
    (h : code[p]? = some (.label l)) :
    readBytes (code.flatMap (Bytecodes.storeCell bc)) (offset bc code p) bc.numbytesLabel =
      some (Bytecodes.labelValue bc l%256^bc.numbytesLabel) := by
  obtain ⟨before, after, hs, hl⟩ := stored_split hw h
  rw [hs, ← hl]
  exact readBytes_storeValue hw.label _ before after

def stackRefs (es : List Entry) : ℕ :=
  es.countP fun e => match e with | .operand .stack _ => true | _ => false

/-- The size of a code: its cells and the extra bytes of its operands. -/
theorem size_sum (hw : Widths bc) (es : List Entry) :
    (es.map (Entry.size bc)).sum = es.length+(tally es).literals*(bc.numbytesLiteral-1)
      +(tally es).forks*(bc.numbytesFork-1)+(tally es).varRefs*(bc.numbytesVarName-1)
      +(tally es).labels*(bc.numbytesLabel-1)+stackRefs es*(bc.numbytesStack-1) := by
  have hpos (n : ℕ) (hn : IsWidth n) : n = 1+(n-1) := by
    rcases hn with rfl | rfl | rfl <;> rfl
  induction es with
  | nil => simp [tally, stackRefs]
  | cons e es ih =>
    rw [List.map_cons, List.sum_cons, ih]
    cases e with
    | byte n =>
      simp [Entry.size, tally, stackRefs]
      omega
    | label =>
      rw [Entry.size, hpos _ hw.label]
      simp [tally, stackRefs]
      ring
    | operand kind value =>
      rw [Entry.size, hpos _ (hw.fixup kind)]
      cases kind <;> simp [tally, stackRefs, Bytecodes.fixupSize] <;> ring

/-- A label is short of its target by the extra bytes of the stack references before it. -/
theorem offset_label (hw : Widths bc) {code : List Cell} {l : Label}
    (h : Resolved (code.map Cell.entry) l) :
    offset bc code l.value = Bytecodes.labelValue bc l
      +stackRefs ((code.map Cell.entry).take l.value)*(bc.numbytesStack-1) := by
  have hlen : ((code.map Cell.entry).take l.value).length = l.value :=
    List.length_take_of_le h.le
  have hstack : l.prev.stackRefs = 0 := by rw [h.prev, tally]
  rw [offset, List.map_take, size_sum hw, hlen, ← h.prev, Bytecodes.labelValue, hstack,
    Nat.zero_mul, Nat.add_zero]

theorem stackRefs_take (es : List Entry) (q n : ℕ) (h : stackRefs es*n = 0) :
    stackRefs (es.take q)*n = 0 := by
  have hle : stackRefs (es.take q) ≤ stackRefs es := (List.take_sublist q es).countP_le
  rcases Nat.mul_eq_zero.mp h with h | h
  · rw [h, Nat.le_zero] at hle
    rw [hle, Nat.zero_mul]
  · rw [h, Nat.mul_zero]

theorem offset_mono (code : List Cell) {p q : ℕ} (h : p ≤ q) :
    offset bc code p ≤ offset bc code q := by
  obtain ⟨rest, hrest⟩ := List.take_prefix_take_left (l := code) h
  simp [offset, ← hrest]

end

/-- The bytes written are as many as the vector has room for. -/
theorem written_eq_size_iff (s : State) (hc : s.num = tally s.entries) :
    (writtenBytes s).length = (chooseWidths s).size ↔
      (writtenBytes s).length < 2^32 ∧
        stackRefs s.entries*((chooseWidths s).numbytesStack-1) = 0 := by
  have hsum := size_sum (chooseWidths_widths s) s.entries
  have hlen : (writtenBytes s).length = (s.entries.map (Entry.size (chooseWidths s))).sum :=
    flatMap_length (chooseWidths_widths s) s.code
  rw [← hlen, ← hc, State.entries_length] at hsum
  have hsize : (chooseWidths s).size = ((s.numBytes+((chooseWidths s).numbytesLiteral-1)*s.num.literals
      +((chooseWidths s).numbytesFork-1)*s.num.forks
      +((chooseWidths s).numbytesVarName-1)*s.num.varRefs)%2^32
      +((chooseWidths s).numbytesLabel-1)*s.num.labels)%2^32 := rfl
  rw [hsize]
  generalize (writtenBytes s).length = W at *
  rw [Nat.mul_comm s.num.literals, Nat.mul_comm s.num.forks, Nat.mul_comm s.num.varRefs,
    Nat.mul_comm s.num.labels] at hsum
  generalize ((chooseWidths s).numbytesLiteral-1)*s.num.literals = a at *
  generalize ((chooseWidths s).numbytesFork-1)*s.num.forks = b at *
  generalize ((chooseWidths s).numbytesVarName-1)*s.num.varRefs = c at *
  generalize ((chooseWidths s).numbytesLabel-1)*s.num.labels = d at *
  generalize stackRefs s.entries*((chooseWidths s).numbytesStack-1) = e at *
  omega

/-- Every label has been defined, and the code starts with an opcode. -/
structure Complete (s : State) : Prop where
  counted : s.num = tally s.entries
  settled : ∀ (p : ℕ) (l : Label), s.code[p]? = some (.label l) → Settled s.entries l
  first : ∀ c, s.code[0]? = some c → ∃ n d, c = .byte n d

/-- No byte is written past the end of the vector. -/
def NoOverrun (s : State) : Prop :=
  (writtenBytes s).length < 2^32 ∧ stackRefs s.entries*((chooseWidths s).numbytesStack-1) = 0

/-- Every label is stored as the offset of its target. -/
def Relocated (s : State) : Prop :=
  ∀ (p : ℕ) (l : Label), s.code[p]? = some (.label l) →
    readBytes (writtenBytes s) (offset (chooseWidths s) s.code p) (chooseWidths s).numbytesLabel =
      some (offset (chooseWidths s) s.code l.value)

theorem offset_length (s : State) :
    offset (chooseWidths s) s.code s.numBytes = (writtenBytes s).length := by
  rw [writtenBytes, flatMap_length (chooseWidths_widths s), offset, State.numBytes, List.take_length]

/-- The width of labels is enough for every offset below the size. -/
theorem written_le_label {s : State} (hc : s.num = tally s.entries) (h : NoOverrun s) :
    (writtenBytes s).length ≤ 256^(chooseWidths s).numbytesLabel := by
  have hsum := size_sum (chooseWidths_widths s) s.entries
  have hlen : (writtenBytes s).length = (s.entries.map (Entry.size (chooseWidths s))).sum :=
    flatMap_length (chooseWidths_widths s) s.code
  rw [← hlen, ← hc, State.entries_length, h.2] at hsum
  have hlt := h.1
  have hlabel : (chooseWidths s).numbytesLabel =
      if (s.numBytes+((chooseWidths s).numbytesLiteral-1)*s.num.literals
        +((chooseWidths s).numbytesFork-1)*s.num.forks
        +((chooseWidths s).numbytesVarName-1)*s.num.varRefs)%2^32 ≤ 256 then 1
      else if ((s.numBytes+((chooseWidths s).numbytesLiteral-1)*s.num.literals
        +((chooseWidths s).numbytesFork-1)*s.num.forks
        +((chooseWidths s).numbytesVarName-1)*s.num.varRefs)%2^32+s.num.labels)%2^32 ≤ 256*256
      then 2 else 4 := rfl
  rw [Nat.mul_comm s.num.literals, Nat.mul_comm s.num.forks, Nat.mul_comm s.num.varRefs] at hsum
  generalize (writtenBytes s).length = W at *
  generalize ((chooseWidths s).numbytesLiteral-1)*s.num.literals = a at *
  generalize ((chooseWidths s).numbytesFork-1)*s.num.forks = b at *
  generalize ((chooseWidths s).numbytesVarName-1)*s.num.varRefs = c at *
  generalize (chooseWidths s).numbytesLabel = w at *
  split at hlabel
  · subst hlabel
    omega
  · split at hlabel
    · subst hlabel
      omega
    · subst hlabel
      omega

/-- The first cell is one byte, so the first two positions are their own offsets. -/
theorem offset_small (bc : Bytecodes) {s : State} (hs : Complete s) {value : ℕ} (hv : value ≤ 1) :
    offset bc (emitOp .done s).code value = value := by
  have hz : offset bc (emitOp .done s).code 0 = 0 := by simp [offset]
  rcases Nat.le_one_iff_eq_zero_or_eq_one.mp hv with rfl | rfl
  · exact hz
  · have hget : ∃ n d, (emitOp .done s).code[0]? = some (.byte n d) := by
      cases hcode : s.code with
      | nil => exact ⟨Opcode.done.toNat, s.curStack, by simp [emitOp, emitByte, hcode]⟩
      | cons c rest =>
        obtain ⟨n, d, rfl⟩ := hs.first c (by simp [hcode])
        exact ⟨n, d, by simp [emitOp, emitByte, hcode]⟩
    obtain ⟨n, d, hget⟩ := hget
    rw [show 1 = 0+1 from rfl, offset_succ hget, hz]
    rfl

theorem relocated_done {s : State} (hs : Complete s) (h : NoOverrun (emitOp .done s)) :
    Relocated (emitOp .done s) := by
  intro p l hp
  have hcode : (emitOp .done s).code = s.code++[.byte Opcode.done.toNat s.curStack] := rfl
  have hc : (emitOp .done s).num = tally (emitOp .done s).entries :=
    ((Grows.refl s hs.counted).op .done).counted
  have hpre : s.entries <+: (emitOp .done s).entries := ((Grows.refl s hs.counted).op .done).entries
  have hw := chooseWidths_widths (emitOp .done s)
  have hps : s.code[p]? = some (.label l) := by
    rw [hcode] at hp
    rcases Nat.lt_or_ge p s.code.length with hlt | hge
    · rwa [List.getElem?_append_left hlt] at hp
    · rw [List.getElem?_append_right hge] at hp
      cases hk : p-s.code.length with
      | zero => simp [hk] at hp
      | succ k => simp [hk] at hp
  rw [writtenBytes, stored_label hw hp]
  have hle := written_le_label hc h
  rcases hs.settled p l hps with hr | hpseudo
  · have hlt : offset (chooseWidths (emitOp .done s)) (emitOp .done s).code l.value <
        (writtenBytes (emitOp .done s)).length := by
      have hget : (emitOp .done s).code[s.numBytes]? =
          some (.byte Opcode.done.toNat s.curStack) := by simp [hcode, State.numBytes]
      have h1 : offset (chooseWidths (emitOp .done s)) _ _ = _ := offset_succ hget
      rw [← offset_length, emitOp_numBytes, h1]
      have hvalue : l.value ≤ s.numBytes := by simpa using hr.le
      have : offset (chooseWidths (emitOp .done s)) _ _ ≤ _ :=
        offset_mono (emitOp .done s).code hvalue
      simp only [Cell.entry, Entry.size]
      omega
    have hoff := offset_label hw (hr.mono hpre)
    have hstack := stackRefs_take _ l.value _ h.2
    rw [State.entries] at hstack
    rw [hstack, Nat.add_zero] at hoff
    rw [← hoff, Nat.mod_eq_of_lt (by omega)]
  · have hzero : ∀ value, value ≤ 1 → l = pseudoLabel value →
        some (Bytecodes.labelValue (chooseWidths (emitOp .done s)) l %
          256^(chooseWidths (emitOp .done s)).numbytesLabel) =
        some (offset (chooseWidths (emitOp .done s)) (emitOp .done s).code l.value) := by
      intro value hv hl
      have hwidth : 1 < 256^(chooseWidths (emitOp .done s)).numbytesLabel :=
        Nat.one_lt_pow (by rcases hw.label with h | h | h <;> omega) (by decide)
      have hval : Bytecodes.labelValue (chooseWidths (emitOp .done s)) l = value := by
        simp [hl, pseudoLabel, Bytecodes.labelValue]
      rw [hval, Nat.mod_eq_of_lt (by omega), hl, pseudoLabel, offset_small _ hs hv]
    rcases hpseudo with hl | hl
    · exact hzero 0 (by omega) hl
    · exact hzero 1 le_rfl hl

/-- No byte or operand is cut off. -/
structure Fits (v : Finished) : Prop where
  byte : ∀ n d, Cell.byte n d ∈ v.code → n < 256
  operand : ∀ kind value, Cell.operand kind value ∈ v.code →
    value < 256^(Bytecodes.fixupSize v.bc kind)

def Cell.depth : Cell → Option ℕ
  | .byte _ d => some d
  | _ => none

/-- The depth of the operand stack at the byte that was stored at an offset. -/
def depthAt (bc : Bytecodes) : List Cell → ℕ → Option ℕ
  | [], _ => none
  | c::code, a =>
    if a < c.entry.size bc then c.depth else depthAt bc code (a-c.entry.size bc)

theorem depthAt_offset {bc : Bytecodes} {code : List Cell} {p n d : ℕ}
    (h : code[p]? = some (.byte n d)) : depthAt bc code (offset bc code p) = some d := by
  induction code generalizing p with
  | nil => cases h
  | cons c code ih =>
    cases p with
    | zero =>
      rw [List.getElem?_cons_zero, Option.some.injEq] at h
      subst h
      simp [depthAt, offset, Cell.entry, Entry.size, Cell.depth]
    | succ p =>
      rw [List.getElem?_cons_succ] at h
      have : offset bc (c::code) (p+1) = c.entry.size bc+offset bc code p := by simp [offset]
      rw [this, depthAt, if_neg (by omega), Nat.add_sub_cancel_left, ih h]

/-- The finished vector of a program with the depths of its bytes. -/
def Finished.vec (v : Finished) : Vec := ⟨v.bc, depthAt v.bc v.code⟩

theorem layout_ok {s : State} {bc : Bytecodes} (hc : s.num = tally s.entries)
    (h : layout s = .ok bc) : bc = { chooseWidths s with vector := writtenBytes s } ∧
      NoOverrun s := by
  simp only [layout] at h
  split at h
  · rename_i hle
    rw [Except.ok.injEq] at h
    refine ⟨h.symm, (written_eq_size_iff s hc).mp (Nat.le_antisymm hle ?_)⟩
    have hsum := size_sum (chooseWidths_widths s) s.entries
    have hlen : (writtenBytes s).length = (s.entries.map (Entry.size (chooseWidths s))).sum :=
      flatMap_length (chooseWidths_widths s) s.code
    rw [← hlen, ← hc, State.entries_length] at hsum
    have hsize : (chooseWidths s).size =
        ((s.numBytes+((chooseWidths s).numbytesLiteral-1)*s.num.literals
        +((chooseWidths s).numbytesFork-1)*s.num.forks
        +((chooseWidths s).numbytesVarName-1)*s.num.varRefs)%2^32
        +((chooseWidths s).numbytesLabel-1)*s.num.labels)%2^32 := rfl
    have h1 := Nat.mod_le (s.numBytes+((chooseWidths s).numbytesLiteral-1)*s.num.literals
        +((chooseWidths s).numbytesFork-1)*s.num.forks
        +((chooseWidths s).numbytesVarName-1)*s.num.varRefs) (2^32)
    rw [hsize]
    refine (Nat.mod_le _ _).trans ((Nat.add_le_add_right h1 _).trans ?_)
    rw [hsum, Nat.mul_comm s.num.literals, Nat.mul_comm s.num.forks, Nat.mul_comm s.num.varRefs,
      Nat.mul_comm s.num.labels]
    exact Nat.le_add_right _ _
  · cases h

/-- A finished vector whose operands fit reads as its code says. -/
theorem laid_done {s : State} {v : Finished} (hs : Complete s)
    (h : layout (emitOp .done s) = .ok v.bc) (hv : v.code = (emitOp .done s).code)
    (hf : Fits v) : Laid v.vec (offset v.bc v.code) v.code := by
  have hc : (emitOp .done s).num = tally (emitOp .done s).entries :=
    ((Grows.refl s hs.counted).op .done).counted
  obtain ⟨hbc, hno⟩ := layout_ok hc h
  obtain ⟨bc, code⟩ := v
  dsimp only at hbc hv
  subst hv
  have hw : Widths bc := by
    have := chooseWidths_widths (emitOp .done s)
    exact hbc ▸ ⟨this.fixup, this.label⟩
  have hvec : bc.vector = (emitOp .done s).code.flatMap (Bytecodes.storeCell bc) := by
    rw [hbc]
    rfl
  have hoff : offset bc = offset (chooseWidths (emitOp .done s)) := by
    rw [hbc]
    rfl
  have hrel := relocated_done hs hno
  have hlabel : ∀ (p : ℕ) (l : Label), (emitOp .done s).code[p]? = some (.label l) →
      readBytes bc.vector (offset bc (emitOp .done s).code p) bc.numbytesLabel =
        some (offset bc (emitOp .done s).code l.value) := by
    intro p l hp
    have := hrel p l hp
    rw [hoff, hbc]
    exact this
  refine ⟨fun p n d hp => ⟨hf.byte n d (List.mem_of_getElem? hp), ?_, depthAt_offset hp,
    offset_succ hp⟩, fun p kind value hp => ⟨?_, offset_succ hp⟩,
    fun p l hp _ => ⟨hlabel p l hp, offset_succ hp⟩,
    fun p value hp hv => ⟨(hlabel p _ hp).trans ?_, offset_succ hp⟩⟩
  · rw [Finished.vec, hvec]
    exact stored_byte hw hp
  · rw [Finished.vec, hvec, stored_operand hw hp, Nat.mod_eq_of_lt]
    exact hf.operand kind value (List.mem_of_getElem? hp)
  · rw [pseudoLabel, offset_small bc hs hv]

end LambdaMoo.CodeGen
