import LambdaMoo.Total
import LambdaMoo.Vectors

/-!
# Relocation

When the layout of a vector is right: the bytes written are as many as the
vector holds and every label is the offset of its target. `add_stack_ref`
never counts its operand and the size leaves these operands out, so this
fails as soon as a stack reference takes more than one byte.
-/

set_option autoImplicit false

namespace LambdaMoo.CodeGen

/-- The widths that `stmt_to_code` chooses for what has been counted. -/
def Account.widths (a : Account) (maxStack : ℕ) : Bytecodes :=
  let literal := refSize (max a.maxLiteral a.literals.length)
  let fork := refSize (max a.maxFork a.forks)
  let varName := refSize (max a.maxVarRef a.totalVarRefs)
  let size := (a.entries.length+(literal-1)*a.num.literals+(fork-1)*a.num.forks
    +(varName-1)*a.num.varRefs)%2^32
  let label := if size ≤ 256 then 1 else if (size+a.num.labels)%2^32 ≤ 256*256 then 2 else 4
  { numbytesLabel := label
    numbytesLiteral := literal
    numbytesFork := fork
    numbytesVarName := varName
    numbytesStack := refSize maxStack
    vector := []
    size := (size+(label-1)*a.num.labels)%2^32
    maxStack := maxStack }

theorem chooseWidths_account (s : State) : chooseWidths s = s.account.widths s.maxStack := by
  simp [chooseWidths, Account.widths, State.account, State.numBytes]

/-- What one call of `stmt_to_code` counts for a statement list. -/
def vectorAccount (g : GState) (ss : Stmts) : Account :=
  (initState g).account.emits (itemsStmts 0 [] ss++[.op .done])

/-- The bytes of the vector of a statement list. -/
def vectorBytes (g : GState) (ss : Stmts) : ℕ :=
  ((vectorAccount g ss).entries.map
    (Entry.size ((vectorAccount g ss).widths (needStmts ss)))).sum

section
variable {ss : Stmts} {g : GState} {s : State}

theorem account_done (hs : ss.accepts [] = true) (h : generateStmts ss (initState g) = .ok s) :
    (emitOp .done s).account = vectorAccount g ss ∧ (emitOp .done s).maxStack = needStmts ss := by
  have t := (generateStmts_standing ss (initState_standing g) hs h).op .done
  refine ⟨?_, ?_⟩
  · rw [t.account, vectorAccount, Account.emits_append]
    rfl
  · rw [t.max]
    omega

theorem written_length (hs : ss.accepts [] = true)
    (h : generateStmts ss (initState g) = .ok s) :
    (writtenBytes (emitOp .done s)).length = vectorBytes g ss := by
  obtain ⟨ha, hm⟩ := account_done hs h
  rw [writtenBytes, flatMap_length (chooseWidths_widths _), chooseWidths_account, ha, hm]
  exact congrArg (fun a : Account => (a.entries.map (Entry.size _)).sum) ha

theorem emit_stackRefs (a : Account) (i : Item) :
    stackRefs (a.emit i).entries = stackRefs a.entries+(match i with | .stack _ => 1 | _ => 0) := by
  cases i <;> simp [Account.emit, stackRefs, List.countP_append]

theorem emits_stackRefs (a : Account) (items : List Item) :
    stackRefs (a.emits items).entries = 0 ↔
      stackRefs a.entries = 0 ∧ ∀ i, Item.stack i ∉ items := by
  induction items generalizing a with
  | nil => simp
  | cons i items ih =>
    rw [Account.emits_cons, ih, emit_stackRefs]
    cases i with
    | stack k =>
      simp only [Nat.add_eq_zero_iff, Nat.one_ne_zero, and_false, false_and, false_iff, not_and,
        not_forall, not_not]
      exact fun _ => ⟨k, List.mem_cons_self⟩
    | _ => simp

/-- Nothing is written past the vector exactly if no wide stack reference is in it. -/
theorem noOverrun_iff (hs : ss.accepts [] = true) (h : generateStmts ss (initState g) = .ok s) :
    NoOverrun (emitOp .done s) ↔
      vectorBytes g ss < 2^32 ∧ (needStmts ss ≤ 256 ∨ ∀ i, Item.stack i ∉ itemsStmts 0 [] ss) := by
  obtain ⟨ha, hm⟩ := account_done hs h
  have hrefs : stackRefs (emitOp .done s).entries = 0 ↔
      ∀ i, Item.stack i ∉ itemsStmts 0 [] ss := by
    have hent : (emitOp .done s).entries = (vectorAccount g ss).entries :=
      congrArg Account.entries ha
    rw [hent, vectorAccount, emits_stackRefs]
    simp [State.account, initState, stackRefs, Item.op]
  have hwidth : (chooseWidths (emitOp .done s)).numbytesStack-1 = 0 ↔ needStmts ss ≤ 256 := by
    have : (chooseWidths (emitOp .done s)).numbytesStack = refSize (needStmts ss) := hm ▸ rfl
    rw [this, refSize]
    split
    · simpa
    · split
      · simpa using by omega
      · simpa using by omega
  rw [NoOverrun, written_length hs h, Nat.mul_eq_zero, hrefs, hwidth, or_comm]

/-- The layout of a vector is right exactly if its stack references fit in one byte or there are
none, and it has less than 2^32 bytes. -/
theorem layout_correct_iff (hs : ss.accepts [] = true)
    (h : generateStmts ss (initState g) = .ok s) :
    ((writtenBytes (emitOp .done s)).length = (chooseWidths (emitOp .done s)).size ∧
      Relocated (emitOp .done s)) ↔
    vectorBytes g ss < 2^32 ∧ (needStmts ss ≤ 256 ∨ ∀ i, Item.stack i ∉ itemsStmts 0 [] ss) := by
  have hcomp := generateStmts_complete hs h
  have hc : (emitOp .done s).num = tally (emitOp .done s).entries :=
    ((Grows.refl s hcomp.counted).op .done).counted
  rw [← noOverrun_iff hs h, written_eq_size_iff _ hc]
  exact ⟨fun ⟨hno, _⟩ => hno, fun hno => ⟨hno, relocated_done hcomp hno⟩⟩

end

/-- `while (x) x[$] = "a"; break; endwhile` -/
def lastReplaced : Stmts := .single (.while none (.id 17) (.cons
  (.expr (.asgn (.index (.id 17) .length) (.var (.str [97])))) (.single (.break none))))

theorem lastReplaced_generated : ∃ s, generateStmts lastReplaced (initState initGstate) = .ok s := by
  have hok : (generateStmts lastReplaced (initState initGstate)).map (fun _ => ()) = .ok () := rfl
  cases h : generateStmts lastReplaced (initState initGstate) with
  | ok s => exact ⟨s, rfl⟩
  | error e =>
    rw [h] at hok
    cases hok

/-- A loop with labels, a literal, a variable and references to the stack. -/
theorem layout_correct_loop : ∃ s, generateStmts lastReplaced (initState initGstate) = .ok s ∧
    (writtenBytes (emitOp .done s)).length = (chooseWidths (emitOp .done s)).size ∧
    Relocated (emitOp .done s) := by
  obtain ⟨s, h⟩ := lastReplaced_generated
  exact ⟨s, h, (layout_correct_iff (by decide) h).mpr ⟨by decide, .inl (by decide)⟩⟩

/-- `$` under `n` additions. -/
def deepLength : ℕ → Expr
  | 0 => .length
  | n+1 => .binary .plus (.var (.int 1)) (deepLength n)

/-- `x[1+(1+ … +$)]`. -/
def deepIndex (n : ℕ) : Stmts := .single (.expr (.index (.id 17) (deepLength n)))

theorem deepLength_accepts (n : ℕ) : (deepLength n).accepts true = true := by
  induction n with
  | zero => rfl
  | succ n ih => simp [deepLength, Expr.accepts, Var.isLiteral, ih]

theorem deepLength_need (n : ℕ) : needExpr (deepLength n) = n+1 := by
  induction n with
  | zero => rfl
  | succ n ih =>
    simp only [deepLength, needExpr, ih]
    omega

theorem deepLength_stack (n d k : ℕ) : Item.stack k ∈ itemsExpr d (some k) (deepLength n) := by
  induction n generalizing d with
  | zero => simp [deepLength, itemsExpr]
  | succ n ih => simp [deepLength, itemsExpr, ih]

/-- One wide stack reference is enough to write past the end of the vector. -/
theorem deepIndex_overrun : ∃ s, (deepIndex 255).accepts [] = true ∧
    generateStmts (deepIndex 255) (initState initGstate) = .ok s ∧
    ¬((writtenBytes (emitOp .done s)).length = (chooseWidths (emitOp .done s)).size ∧
      Relocated (emitOp .done s)) := by
  have hacc : (Expr.index (.id 17) (deepLength 255)).accepts false = true := by
    simp [Expr.accepts, slotOk, deepLength_accepts]
  have hs : (deepIndex 255).accepts [] = true := by
    simp only [deepIndex, Stmts.single, Stmts.accepts, Stmt.accepts, hacc, Bool.and_self]
  obtain ⟨s1, h1⟩ := generateExpr_total _ (Expr.accepts_scoped _ hacc) (initState_standing initGstate) (by simp)
  have h : generateStmts (deepIndex 255) (initState initGstate) =
      .ok (popStack 1 (emitOp .pop s1)) := by
    simp only [deepIndex, Stmts.single, generateStmts, generateStmt, bind_ok, pure_ok]
    exact ⟨_, ⟨s1, h1, rfl⟩, rfl⟩
  refine ⟨_, hs, h, ?_⟩
  rintro ⟨hsize, -⟩
  have hcomp := generateStmts_complete hs h
  have hno := (noOverrun_iff hs h).mp
    ((written_eq_size_iff _ ((Grows.refl _ hcomp.counted).op .done).counted).mp hsize)
  rcases hno.2 with hneed | hstack
  · simp [deepIndex, Stmts.single, needStmts, needStmt, needExpr, deepLength_need] at hneed
  · refine hstack 0 ?_
    simp [deepIndex, Stmts.single, itemsStmts, itemsStmt, itemsExpr, deepLength_stack]

end LambdaMoo.CodeGen
