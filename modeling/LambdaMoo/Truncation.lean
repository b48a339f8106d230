import LambdaMoo.HeaderBytes
import LambdaMoo.StackIndex

/-!
# Truncation

When every operand of a vector decodes to the value that was meant. The
widths come from `ref_size` of a count or a maximum, which gives one byte to
256 and two to 65536, so that an operand equal to the maximum is cut off there.
-/

set_option autoImplicit false

namespace LambdaMoo.CodeGen

/-- Every byte and operand of a code reads back from the stored bytes as it was emitted. -/
structure Intact (s : State) : Prop where
  byte : ∀ p n d, s.code[p]? = some (.byte n d) →
    (writtenBytes s)[offset (chooseWidths s) s.code p]?.map UInt8.toNat = some n
  operand : ∀ p kind value, s.code[p]? = some (.operand kind value) →
    readBytes (writtenBytes s) (offset (chooseWidths s) s.code p)
      (Bytecodes.fixupSize (chooseWidths s) kind) = some value

theorem intact_iff_fits (s : State) : Intact s ↔ Fits ⟨chooseWidths s, s.code⟩ := by
  have hw := chooseWidths_widths s
  refine ⟨fun h => ⟨fun n d hc => ?_, fun kind value hc => ?_⟩,
    fun h => ⟨fun p n d hp => ?_, fun p kind value hp => ?_⟩⟩
  · obtain ⟨p, hp⟩ := List.mem_iff_getElem?.mp hc
    have := h.byte p n d hp
    rw [writtenBytes, stored_byte hw hp, Option.map_some, UInt8.toNat_ofNat',
      Option.some.injEq] at this
    omega
  · obtain ⟨p, hp⟩ := List.mem_iff_getElem?.mp hc
    have := h.operand p kind value hp
    rw [writtenBytes, stored_operand hw hp, Option.some.injEq] at this
    exact this ▸ Nat.mod_lt _ (Nat.pow_pos (by decide))
  · rw [writtenBytes, stored_byte hw hp, Option.map_some, UInt8.toNat_ofNat',
      Nat.mod_eq_of_lt (h.byte n d (List.mem_of_getElem? hp))]
  · rw [writtenBytes, stored_operand hw hp,
      Nat.mod_eq_of_lt (h.operand kind value (List.mem_of_getElem? hp))]

/-- The entry of an item whose value no table determines. -/
def Item.entry : Item → Option Entry
  | .byte n => some (.byte n)
  | .varRef slot => some (.operand .varRef slot)
  | .label => some .label
  | .stack k => some (.operand .stack k)
  | .literal _ | .fork | .forked _ => none

theorem emits_entry (a : Account) (items : List Item) {i : Item} {e : Entry}
    (h : i.entry = some e) : e ∈ (a.emits items).entries ↔ e ∈ a.entries ∨ i ∈ items := by
  induction items generalizing a with
  | nil => simp
  | cons i' items ih =>
    rw [Account.emits_cons, ih, List.mem_cons, ← or_assoc]
    refine or_congr_left ?_
    cases i <;> cases h <;> cases i' <;> simp [Account.emit]

theorem emits_maxVarRef (a : Account) (items : List Item) (n : ℕ) :
    n < (a.emits items).maxVarRef ↔
      n < a.maxVarRef ∨ ∃ slot, n < slot ∧ Item.varRef slot ∈ items := by
  induction items generalizing a with
  | nil => simp
  | cons i items ih =>
    rw [Account.emits_cons, ih]
    cases i with
    | varRef slot =>
      simp only [Account.emit, lt_max_iff, List.mem_cons, Item.varRef.injEq, or_assoc]
      refine or_congr_right ⟨?_, ?_⟩
      · rintro (h | ⟨k, hk, hm⟩)
        · exact ⟨slot, h, .inl rfl⟩
        · exact ⟨k, hk, .inr hm⟩
      · rintro ⟨k, hk, rfl | hm⟩
        · exact .inl hk
        · exact .inr ⟨k, hk, hm⟩
    | _ => simp [Account.emit]

/-- The indexes stored are below the lengths of their tables. -/
structure Indexed (a : Account) : Prop where
  literal : ∀ i, Entry.operand .literal i ∈ a.entries → i < a.literals.length
  fork : ∀ i, Entry.operand .fork i ∈ a.entries → i < a.forks

theorem internLiteral_index (v : Var) (literals : List Var) :
    (internLiteral v literals).1 < (internLiteral v literals).2.length ∧
      literals.length ≤ (internLiteral v literals).2.length := by
  have hle : literals.findIdx (fun l => v.type == l.type && equality true v l) ≤ literals.length :=
    List.findIdx_le_length
  simp only [internLiteral]
  split
  · simp only [List.length_append, List.length_singleton]
    omega
  · dsimp only
    omega

theorem emit_tables (a : Account) (i : Item) :
    a.literals.length ≤ (a.emit i).literals.length ∧ a.forks ≤ (a.emit i).forks := by
  match i with
  | .literal v => exact ⟨(internLiteral_index v a.literals).2, le_rfl⟩
  | .fork => exact ⟨le_rfl, Nat.le_succ _⟩
  | .forked i => exact emit_tables a i
  | .byte _ | .varRef _ | .label | .stack _ => exact ⟨le_rfl, le_rfl⟩

theorem Indexed.emit {a : Account} (h : Indexed a) (i : Item) : Indexed (a.emit i) := by
  have ht := emit_tables a i
  have hl : ∀ k, Entry.operand .literal k ∈ a.entries → k < (a.emit i).literals.length :=
    fun k hk => (h.literal k hk).trans_le ht.1
  have hf : ∀ k, Entry.operand .fork k ∈ a.entries → k < (a.emit i).forks :=
    fun k hk => (h.fork k hk).trans_le ht.2
  cases i with
  | literal v =>
    refine ⟨fun k hk => ?_, fun k hk => hf k (by simpa [Account.emit] using hk)⟩
    rcases List.mem_append.mp hk with hk | hk
    · exact hl k hk
    · simp only [List.mem_singleton, Entry.operand.injEq, true_and] at hk
      exact hk ▸ (internLiteral_index v a.literals).1
  | fork =>
    refine ⟨fun k hk => hl k (by simpa [Account.emit] using hk), fun k hk => ?_⟩
    rcases List.mem_append.mp hk with hk | hk
    · exact hf k hk
    · simp only [List.mem_singleton, Entry.operand.injEq, true_and] at hk
      exact hk ▸ Nat.lt_succ_self _
  | _ =>
    exact ⟨fun k hk => hl k (by simpa [Account.emit] using hk),
      fun k hk => hf k (by simpa [Account.emit] using hk)⟩

theorem Indexed.emits {a : Account} (h : Indexed a) (items : List Item) :
    Indexed (a.emits items) := by
  induction items generalizing a with
  | nil => exact h
  | cons i items ih => exact ih (h.emit i)

/-- The size for a maximum is enough for the values below it, and for the maximum too unless it
is 256 or 65536. -/
theorem lt_refSize_iff {v m : ℕ} (h : v ≤ m) :
    v < 256^refSize m ↔ (v = 256 ∨ v = 65536 → v < m) ∧ v < 2^32 := by
  unfold refSize
  split
  · omega
  · split
    · omega
    · omega

/-- Operands that the widths of a vector are too small for do not occur in it. -/
structure OperandsFit (g : GState) (ss : Stmts) : Prop where
  header : ss.headersFit = true
  varRef : ∀ n, n = 256 ∨ n = 65536 → Item.varRef n ∈ itemsStmts 0 [] ss →
    n < (vectorAccount g ss).totalVarRefs ∨ ∃ slot, n < slot ∧ Item.varRef slot ∈ itemsStmts 0 [] ss
  stack : ∀ n, n = 256 ∨ n = 65536 → Item.stack n ∈ itemsStmts 0 [] ss → n < needStmts ss
  bounded : ∀ kind i, Entry.operand kind i ∈ (vectorAccount g ss).entries → i < 2^32

section
variable {ss : Stmts} {g : GState} {s : State}

theorem vectorAccount_entry {i : Item} {e : Entry} (hi : i.entry = some e)
    (hdone : i ≠ .op .done) :
    e ∈ (vectorAccount g ss).entries ↔ i ∈ itemsStmts 0 [] ss := by
  rw [vectorAccount, emits_entry _ _ hi, List.mem_append, List.mem_singleton]
  simp [State.account, initState, hdone]

theorem vectorAccount_maxVarRef (n : ℕ) : n < (vectorAccount g ss).maxVarRef ↔
    ∃ slot, n < slot ∧ Item.varRef slot ∈ itemsStmts 0 [] ss := by
  rw [vectorAccount, emits_maxVarRef]
  simp [State.account, initState, Item.op]

theorem vectorAccount_indexed : Indexed (vectorAccount g ss) :=
  Indexed.emits ⟨by simp [State.account, initState], by simp [State.account, initState]⟩ _

theorem vectorAccount_bytes (hs : ss.accepts [] = true) :
    (∀ n, Entry.byte n ∈ (vectorAccount g ss).entries → n < 256) ↔ ss.headersFit = true := by
  rw [← itemsStmts_bytes 0 [] ss hs, BytesFit]
  refine forall_congr' fun n => ?_
  by_cases hd : Item.byte n = .op .done
  · have hn : n < 256 := by
      rw [Item.op, Item.byte.injEq] at hd
      exact hd ▸ Opcode.toNat_lt _
    simp [hn]
  · rw [vectorAccount_entry rfl hd]

/-- The operands of one kind fit if those that may be as large as the width allows do. -/
theorem vectorAccount_fits :
    (∀ kind value, Entry.operand kind value ∈ (vectorAccount g ss).entries →
      value < 256^(Bytecodes.fixupSize ((vectorAccount g ss).widths (needStmts ss)) kind)) ↔
    (∀ n, n = 256 ∨ n = 65536 → Item.varRef n ∈ itemsStmts 0 [] ss →
      n < (vectorAccount g ss).totalVarRefs ∨
        ∃ slot, n < slot ∧ Item.varRef slot ∈ itemsStmts 0 [] ss) ∧
    (∀ n, n = 256 ∨ n = 65536 → Item.stack n ∈ itemsStmts 0 [] ss → n < needStmts ss) ∧
    ∀ kind i, Entry.operand kind i ∈ (vectorAccount g ss).entries → i < 2^32 := by
  have hvar (n : ℕ) (hn : Entry.operand .varRef n ∈ (vectorAccount g ss).entries) :
      n < 256^(Bytecodes.fixupSize ((vectorAccount g ss).widths (needStmts ss)) .varRef) ↔
        (n = 256 ∨ n = 65536 → n < (vectorAccount g ss).totalVarRefs ∨
          ∃ slot, n < slot ∧ Item.varRef slot ∈ itemsStmts 0 [] ss) ∧ n < 2^32 := by
    have hle : n ≤ max (vectorAccount g ss).maxVarRef (vectorAccount g ss).totalVarRefs := by
      rw [vectorAccount_entry (show (Item.varRef n).entry = _ from rfl) (by simp [Item.op])] at hn
      refine le_max_of_le_left ?_
      cases n with
      | zero => exact Nat.zero_le _
      | succ n => exact (vectorAccount_maxVarRef n).mpr ⟨n+1, Nat.lt_succ_self n, hn⟩
    refine (lt_refSize_iff hle).trans ?_
    rw [lt_max_iff, vectorAccount_maxVarRef, or_comm (b := n < _)]
  have hstack (n : ℕ) (hn : Entry.operand .stack n ∈ (vectorAccount g ss).entries) :
      n < 256^(Bytecodes.fixupSize ((vectorAccount g ss).widths (needStmts ss)) .stack) ↔
        (n = 256 ∨ n = 65536 → n < needStmts ss) ∧ n < 2^32 := by
    rw [vectorAccount_entry (show (Item.stack n).entry = _ from rfl) (by simp [Item.op])] at hn
    have hle := itemsStmts_stack 0 [] (by simp [FramesWithin]) ss n hn
    exact lt_refSize_iff (by omega)
  constructor
  · intro h
    have hlt : ∀ kind i, Entry.operand kind i ∈ (vectorAccount g ss).entries → i < 2^32 := by
      intro kind i hi
      have hw : IsWidth (Bytecodes.fixupSize ((vectorAccount g ss).widths (needStmts ss)) kind) := by
        cases kind <;> exact refSize_width _
      refine (h kind i hi).trans_le ?_
      rcases hw with hw | hw | hw <;> simp [hw]
    refine ⟨fun n hn hi => ?_, fun n hn hi => ?_, hlt⟩
    · have he := (vectorAccount_entry (g := g) (show (Item.varRef n).entry = _ from rfl)
        (by simp [Item.op])).mpr hi
      exact ((hvar n he).mp (h _ _ he)).1 hn
    · have he := (vectorAccount_entry (g := g) (show (Item.stack n).entry = _ from rfl)
        (by simp [Item.op])).mpr hi
      exact ((hstack n he).mp (h _ _ he)).1 hn
  · rintro ⟨hv, hk, hlt⟩ kind value hi
    have hix : Indexed (vectorAccount g ss) := vectorAccount_indexed
    have hb := hlt kind value hi
    cases kind with
    | literal =>
      have := hix.literal value hi
      exact (lt_refSize_iff (by omega)).mpr ⟨fun _ => by omega, hb⟩
    | fork =>
      have := hix.fork value hi
      exact (lt_refSize_iff (by omega)).mpr ⟨fun _ => by omega, hb⟩
    | varRef =>
      have he := (vectorAccount_entry (show (Item.varRef value).entry = _ from rfl)
        (by simp [Item.op])).mp hi
      exact (hvar value hi).mpr ⟨fun hn => hv value hn he, hb⟩
    | stack =>
      have he := (vectorAccount_entry (show (Item.stack value).entry = _ from rfl)
        (by simp [Item.op])).mp hi
      exact (hstack value hi).mpr ⟨fun hn => hk value hn he, hb⟩

theorem code_byte (ha : s.account = vectorAccount g ss) (n : ℕ) :
    Entry.byte n ∈ (vectorAccount g ss).entries ↔ ∃ d, Cell.byte n d ∈ s.code := by
  rw [← ha, State.account, List.mem_map]
  constructor
  · rintro ⟨c, hc, he⟩
    cases c <;> cases he
    exact ⟨_, hc⟩
  · rintro ⟨d, hd⟩
    exact ⟨_, hd, rfl⟩

theorem code_operand (ha : s.account = vectorAccount g ss) (kind : FixupKind) (value : ℕ) :
    Entry.operand kind value ∈ (vectorAccount g ss).entries ↔
      Cell.operand kind value ∈ s.code := by
  rw [← ha, State.account, List.mem_map]
  constructor
  · rintro ⟨c, hc, he⟩
    cases c <;> cases he
    exact hc
  · intro hd
    exact ⟨_, hd, rfl⟩

/-- The bytes read back exactly if the headers fit. -/
theorem bytes_headersFit (hs : ss.accepts [] = true)
    (h : generateStmts ss (initState g) = .ok s) :
    (∀ n d, Cell.byte n d ∈ (emitOp .done s).code → n < 256) ↔ ss.headersFit = true := by
  obtain ⟨ha, -⟩ := account_done hs h
  rw [← vectorAccount_bytes (g := g) hs]
  refine ⟨fun hb n hn => ?_, fun hb n d hd => hb n ((code_byte ha n).mpr ⟨d, hd⟩)⟩
  obtain ⟨d, hd⟩ := (code_byte ha n).mp hn
  exact hb n d hd

/-- Every operand reads back exactly if none of the operands that are too large for their width
occurs. -/
theorem intact_iff (hs : ss.accepts [] = true) (h : generateStmts ss (initState g) = .ok s) :
    Intact (emitOp .done s) ↔ OperandsFit g ss := by
  obtain ⟨ha, hm⟩ := account_done hs h
  have hb := bytes_headersFit hs h
  have ho := @vectorAccount_fits ss g
  have hw : chooseWidths (emitOp .done s) = (vectorAccount g ss).widths (needStmts ss) := by
    rw [chooseWidths_account, ha, hm]
  rw [intact_iff_fits]
  constructor
  · intro hf
    have hop := hf.operand
    dsimp only at hop
    rw [hw] at hop
    obtain ⟨hv, hk, hlt⟩ := ho.mp fun kind value hi => hop kind value ((code_operand ha _ _).mp hi)
    exact ⟨hb.mp hf.byte, hv, hk, hlt⟩
  · intro hf
    refine ⟨hb.mpr hf.header, fun kind value hc => ?_⟩
    dsimp only
    rw [hw]
    exact ho.mpr ⟨hf.varRef, hf.stack, hf.bounded⟩ kind value ((code_operand ha _ _).mpr hc)

end

theorem lastReplaced_fits : OperandsFit initGstate lastReplaced where
  header := by decide
  varRef n hn h := by
    rcases hn with rfl|rfl <;> exact absurd h (by decide)
  stack n hn h := by
    rcases hn with rfl|rfl <;> exact absurd h (by decide)
  bounded kind i hi := by
    have hall : ∀ e ∈ (vectorAccount initGstate lastReplaced).entries, e = .label ∨
        e ∈ (List.range 256).map .byte ∨ e = .operand .stack 0 ∨ e = .operand .literal 0 := by
      decide
    rcases hall _ hi with he|he|he|he <;> simp at he <;> omega

theorem intact_loop : ∃ s, generateStmts lastReplaced (initState initGstate) = .ok s ∧
    Intact (emitOp .done s) := by
  obtain ⟨s, h⟩ := lastReplaced_generated
  exact ⟨s, h, (intact_iff (by decide) h).mpr lastReplaced_fits⟩

/-- `n` required targets. -/
def wideScatter : ℕ → Scatter
  | 0 => .nil
  | n+1 => .cons .required 17 .none (wideScatter n)

theorem wideScatter_length (n : ℕ) : (wideScatter n).length = n := by
  induction n with
  | zero => rfl
  | succ n ih => rw [wideScatter, Scatter.length, ih]

theorem wideScatter_rests (n : ℕ) : (wideScatter n).rests = 0 := by
  induction n with
  | zero => rfl
  | succ n ih => simp [wideScatter, Scatter.rests, ih]

theorem wideScatter_accepts (n : ℕ) : (wideScatter n).accepts false = true := by
  induction n with
  | zero => rfl
  | succ n ih => simp [wideScatter, Scatter.accepts, OptExpr.accepts, slotOk, ih]

/-- The `rest` byte of 255 required targets is 256. -/
theorem wideScatter_cut : ∃ s,
    (Stmts.single (.expr (.asgn (.scatter (wideScatter 255)) (.id 17)))).accepts [] = true ∧
    generateStmts (.single (.expr (.asgn (.scatter (wideScatter 255)) (.id 17))))
      (initState initGstate) = .ok s ∧
    ¬Intact (emitOp .done s) := by
  have hacc : (Expr.asgn (.scatter (wideScatter 255)) (.id 17)).accepts false = true := by
    simp [Expr.accepts, Scatter.vet, wideScatter_rests, wideScatter_length, wideScatter_accepts,
      slotOk]
  have hs : (Stmts.single (.expr (.asgn (.scatter (wideScatter 255)) (.id 17)))).accepts [] =
      true := by
    simp only [Stmts.single, Stmts.accepts, Stmt.accepts, hacc, Bool.and_self]
  obtain ⟨s1, h1⟩ := generateExpr_total _ (Expr.accepts_scoped _ hacc) (initState_standing initGstate) (by simp)
  have h : generateStmts (.single (.expr (.asgn (.scatter (wideScatter 255)) (.id 17))))
      (initState initGstate) = .ok (popStack 1 (emitOp .pop s1)) := by
    simp only [Stmts.single, generateStmts, generateStmt, bind_ok, pure_ok]
    exact ⟨_, ⟨s1, h1, rfl⟩, rfl⟩
  refine ⟨_, hs, h, fun hi => ?_⟩
  have hfit := (bytes_headersFit hs h).mp ((intact_iff_fits _).mp hi).byte
  simp [Stmts.single, Stmts.headersFit, Stmt.headersFit, Expr.headersFit, wideScatter_length,
    wideScatter_rests] at hfit

end LambdaMoo.CodeGen
