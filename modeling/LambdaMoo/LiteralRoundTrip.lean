import LambdaMoo.Items
import LambdaMoo.LiteralParse

/-!
# Literals are read back

A program that returns the text of a literal is accepted, as one program
only, and the code of that program returns the value that was printed. The
code of a literal is straight: it pushes constants and builds lists.
-/

set_option autoImplicit false

namespace LambdaMoo.Parse
open LambdaMoo.DbIo LambdaMoo.Grammar LambdaMoo.CodeGen

inductive Next where
  | go (code : List Item) (st : List Var)
  | halt (v : Var)
  deriving DecidableEq, Repr

/-- The instructions that push constants, build lists and return. Any other instruction, and a
type error, is `none`. -/
def step : Opcode → List Item → List Var → Option Next
  | .imm, .literal v::.byte b::code, st =>
    -- a constant that would only be thrown away is skipped together with the pop
    if b = Opcode.pop.toNat then some (.go code st) else some (.go (.byte b::code) (v::st))
  | .optimNum k, code, st => some (.go code (.int (opcodeToOptimNum k)::st))
  | .makeEmptyList, code, st => some (.go code (.list []::st))
  | .makeSingletonList, code, v::st => some (.go code (.list [v]::st))
  | .listAddTail, code, v::.list l::st => some (.go code (.list (l ++ [v])::st))
  | .listAppend, code, .list t::.list l::st => some (.go code (.list (l ++ t)::st))
  | .checkListForSplice, code, .list l::st => some (.go code (.list l::st))
  | .pop, code, _::st => some (.go code st)
  | .return, _, v::_ => some (.halt v)
  | .return0, _, _ => some (.halt zero)
  | .done, _, _ => some (.halt zero)
  | _, _, _ => none

def execute : ℕ → List Item → List Var → Option Var
  | 0, _, _ => none
  | fuel+1, code, st =>
    match code with
    | .byte b::code =>
      match step (Opcode.ofByte (UInt8.ofNat b)) code st with
      | some (.go code st) => execute fuel code st
      | some (.halt v) => some v
      | none => none
    | _ => none

theorem execute_go {o : Opcode} {code code' : List Item} {st st' : List Var}
    (h : step o code st = some (.go code' st')) (fuel : ℕ) :
    execute (fuel+1) (.op o::code) st = execute fuel code' st' := by
  have ho : Opcode.ofByte (UInt8.ofNat o.toNat) = o := Opcode.ofByte_toByte o
  rw [Item.op, execute, ho, h]

theorem execute_halt {o : Opcode} {code : List Item} {st : List Var} {v : Var}
    (h : step o code st = some (.halt v)) (fuel : ℕ) :
    execute (fuel+1) (.op o::code) st = some v := by
  have ho : Opcode.ofByte (UInt8.ofNat o.toNat) = o := Opcode.ofByte_toByte o
  rw [Item.op, execute, ho, h]

def evaluate (ss : Stmts) : Option Var :=
  let code := itemsStmts 0 [] ss ++ [.op .done]
  execute code.length code []

/-- Code that goes on with an instruction other than a pop. -/
def Goes (code : List Item) : Prop := ∃ o rest, code = Item.op o::rest ∧ o ≠ .pop

/-- The code `items` leaves `v` on top of the stack. -/
def Pushes (items : List Item) (v : Var) : Prop :=
  ∃ k ≤ items.length, ∀ fuel code st, Goes code →
    execute (fuel+k) (items ++ code) st = execute fuel code (v::st)

theorem pushes_literal (v : Var) : Pushes [.op .imm, .literal v] v := by
  refine ⟨1, by simp, ?_⟩
  intro fuel code st h
  obtain ⟨o, rest, rfl, ho⟩ := h
  have hne : ¬ o.toNat = Opcode.pop.toNat := by
    intro h
    apply ho
    rw [← Opcode.ofByte_toByte o, ← Opcode.ofByte_toByte .pop, Opcode.toByte, h]
    rfl
  have hs : step .imm (.literal v::Item.op o::rest) st = some (.go (Item.op o::rest) (v::st)) :=
    if_neg hne
  exact execute_go hs fuel

theorem pushes_var (v : Var) : Pushes (varItems v) v := by
  cases v with
  | int m =>
    rw [varItems]
    split
    · next h =>
      obtain ⟨k, hk, hm⟩ := optim_num_roundtrip m h
      refine ⟨1, by simp, ?_⟩
      intro fuel code st _
      rw [hk, List.singleton_append, ← hm]
      exact execute_go rfl fuel
    · exact pushes_literal _
  | _ => exact pushes_literal _

/-- The code `items` appends `ws` to the list on top of the stack. -/
def Extends (items : List Item) (ws : List Var) : Prop :=
  ∃ k ≤ items.length, ∀ fuel code st acc, Goes code →
    execute (fuel+k) (items ++ code) (.list acc::st) = execute fuel code (.list (acc ++ ws)::st)

theorem Pushes.then_extends {items rest : List Item} {w : Var} {ws : List Var}
    (h : Pushes items w) (h' : Extends rest ws) :
    Extends (items ++ [.op .listAddTail] ++ rest) (w::ws) := by
  obtain ⟨k, hk, h⟩ := h
  obtain ⟨k', hk', h'⟩ := h'
  refine ⟨k'+1+k, by simp; omega, ?_⟩
  intro fuel code st acc hc
  rw [List.append_assoc, List.append_assoc, List.singleton_append,
    show fuel+(k'+1+k) = fuel+k'+1+k by omega, h _ _ _ ⟨_, _, rfl, by decide⟩,
    execute_go rfl, h' fuel code st _ hc, List.append_assoc, List.singleton_append]

theorem Pushes.then_list {items rest : List Item} {w : Var} {ws : List Var}
    (h : Pushes items w) (h' : Extends rest ws) :
    Pushes (items ++ [.op .makeSingletonList] ++ rest) (.list (w::ws)) := by
  obtain ⟨k, hk, h⟩ := h
  obtain ⟨k', hk', h'⟩ := h'
  refine ⟨k'+1+k, by simp; omega, ?_⟩
  intro fuel code st hc
  rw [List.append_assoc, List.append_assoc, List.singleton_append,
    show fuel+(k'+1+k) = fuel+k'+1+k by omega, h _ _ _ ⟨_, _, rfl, by decide⟩,
    execute_go rfl, h' fuel code st _ hc, List.singleton_append]

mutual
theorem pushes_expr (d : ℕ) (saved : Option ℕ) :
    ∀ v : Var, Pushes (itemsExpr d saved (literalExpr v)) v
  | .list [] => ⟨1, by simp [literalExpr, literalArgs, itemsExpr, itemsArgList],
      fun fuel _ _ _ => execute_go rfl fuel⟩
  | .list (w::ws) => by
    rw [literalExpr, itemsExpr, literalArgs, itemsArgList]
    exact (pushes_expr d saved w).then_list (extends_args d saved ws)
  | .int _ | .obj _ | .str _ | .err _ | .clear | .none | .catch _ | .finally _ | .float _
  | .waif _ => by
    rw [literalExpr, itemsExpr]
    · exact pushes_var _
    · simp
theorem extends_args (d : ℕ) (saved : Option ℕ) :
    ∀ ws : List Var, Extends (itemsArgs d saved (literalArgs ws)) ws
  | [] => by
    refine ⟨0, Nat.zero_le _, ?_⟩
    intro fuel code st acc _
    rw [literalArgs, itemsArgs, List.nil_append, List.append_nil]
    rfl
  | w::ws => by
    rw [literalArgs, itemsArgs]
    exact (pushes_expr (d+1) saved w).then_extends (extends_args d saved ws)
end

theorem evaluate_returning (v : Var) :
    evaluate (Stmts.single (.return (some (literalExpr v)))) = some v := by
  obtain ⟨k, hk, h⟩ := pushes_expr 0 none v
  have hcode : itemsStmts 0 [] (Stmts.single (.return (some (literalExpr v)))) ++ [.op .done] =
      itemsExpr 0 none (literalExpr v) ++ [.op .return, .op .done] := by
    simp [Stmts.single, itemsStmts, itemsStmt]
  obtain ⟨f, hf⟩ : ∃ f,
      (itemsExpr 0 none (literalExpr v) ++ [Item.op .return, Item.op .done]).length = f+1+k := by
    rw [List.length_append]
    exact ⟨(itemsExpr 0 none (literalExpr v)).length+1-k, by simp; omega⟩
  rw [evaluate, hcode, hf, h _ _ _ ⟨_, _, rfl, by decide⟩]
  exact execute_halt rfl f

section
variable {x : Library} {functions : List Str}

theorem statement_rule (r : Rule) : r.lhs = .statement →
    r ∈ [Rule.exprStmt, .return, .return0] ∨ headKind r ≠ none ∧ headKind r ≠ some .tReturn := by
  cases r with
  | binary op => exact fun h => absurd h (show Nt.expr ≠ _ by decide)
  | _ => decide

theorem headKind_rhs {r : Rule} (h : headKind r ≠ none) :
    ∃ k δ, r.rhs = t k::δ ∧ headKind r = some k := by
  rw [headKind] at h ⊢
  split at h
  · next k δ heq => exact ⟨k, δ, heq, rfl⟩
  · exact absurd rfl h

def returnTokens (v : Var) : List Token := ⟨.tReturn, .none⟩::(literalTokens v ++ [chrToken ';'])

def returnStmt (v : Var) : Stmts := Stmts.single (.return (some (literalExpr v)))

theorem semicolon_delimited : Delimited [chrToken ';'] := ⟨_, _, rfl, by decide⟩

theorem forces_statement {v : Var} (hv : Literal v) {m : ℕ} :
    Forces x functions m .statement (returnTokens v) (.stmts (returnStmt v)) [] := by
  intro left vs γ s s' j h
  obtain ⟨rule, us, val, vs', s₁, s₂, j', m₁, m₂, hl, hm, hb, ha, rfl, hm₂, hs⟩ := h.reduce
  obtain hrule | ⟨hne, hk⟩ := statement_rule rule hl
  · simp only [List.mem_cons, List.not_mem_nil, or_false] at hrule
    obtain rfl | rfl | rfl := hrule
    · exact (not_start .expr rfl (by decide) hb).elim
    · obtain ⟨t', i', us', m', -, hi, rfl, -, hb'⟩ := Derivation.shift hb
      obtain ⟨rfl, rfl⟩ := List.cons.inj hi
      obtain ⟨left', us'', m'', -, rfl, hb''⟩ :=
        (forced_literal v hv).2 m' _ semicolon_delimited hb'
      obtain ⟨t'', i'', us₃, m₃, -, hi', rfl, -, hb₃⟩ := hb''.shift
      obtain ⟨rfl, rfl⟩ := List.cons.inj hi'
      obtain ⟨rfl, rfl, rfl⟩ := hb₃.done
      obtain ⟨rfl, rfl⟩ := Prod.mk.inj (Option.some.inj ha)
      exact ⟨_, vs', m₂, hm₂, rfl, hs⟩
    · obtain ⟨t', i', us', m', -, hi, rfl, -, hb'⟩ := Derivation.shift hb
      obtain ⟨rfl, rfl⟩ := List.cons.inj hi
      exact (not_shift hv (by decide) hb').elim
  · obtain ⟨k, δ, hr, hk'⟩ := headKind_rhs hne
    change Derivation (rules x functions) m₁ [] rule.rhs s (returnTokens v) us s₁ j' at hb
    rw [hr] at hb
    obtain ⟨t', i', _, _, rfl, hi, -⟩ := hb.shift
    obtain ⟨rfl, -⟩ := List.cons.inj hi
    exact absurd hk' hk

/-- The statements before the end are none of these tokens or all of them. -/
theorem split_statements {v : Var} (hv : Literal v) (m : ℕ) {left vs : List Val} {γ : List Sym}
    {s s' : PState} {j : List Token}
    (h : Derivation (rules x functions) m left (n .statements::γ) s (returnTokens v) vs s' j) :
    ∃ left' vs' m', m' < m ∧
      (vs = .stmts .nil::vs' ∧
          Derivation (rules x functions) m' left' γ s (returnTokens v) vs' s' j ∨
        vs = .stmts (returnStmt v)::vs' ∧ Derivation (rules x functions) m' left' γ s [] vs' s' j) := by
  induction m using Nat.strong_induction_on generalizing left vs γ s s' j with
  | _ m ih =>
    obtain ⟨rule, us, val, vs', s₁, s₂, j', m₁, m₂, hl, hm, hb, ha, rfl, hm₂, hs⟩ := h.reduce
    have hrule := rule_for hl (by decide)
    simp only [rulesFor, List.mem_cons, List.not_mem_nil, or_false] at hrule
    obtain rfl | rfl := hrule
    · obtain ⟨rfl, rfl, rfl⟩ := Derivation.done hb
      obtain ⟨rfl, rfl⟩ := Prod.mk.inj (Option.some.inj ha)
      exact ⟨_, vs', m₂, hm₂, .inl ⟨rfl, hs⟩⟩
    · obtain ⟨left', us', m', -, ⟨rfl, hb'⟩ | ⟨rfl, hb'⟩⟩ := ih m₁ hm hb
      · obtain ⟨left'', us'', m'', -, rfl, hb''⟩ := forces_statement hv hb'
        obtain ⟨rfl, rfl, rfl⟩ := hb''.done
        obtain ⟨rfl, rfl⟩ := Prod.mk.inj (Option.some.inj ha)
        exact ⟨_, vs', m₂, hm₂, .inr ⟨rfl, hs⟩⟩
      · obtain ⟨_, _, hi, -⟩ := starts .statement rfl hb'
        exact absurd hi (by simp)

theorem derives_program {v : Var} (hv : Literal v) (s : PState) :
    Derives (rules x functions) [] [n .program] s (returnTokens v) [.stmts (returnStmt v)] s [] := by
  have hst : Derives (rules x functions) [] (Rule.rhs .return) s (returnTokens v)
      [.none, .expr (literalExpr v), .none] s [] :=
    .token ⟨.tReturn, .none⟩ (derives_literal v hv (.token (chrToken ';') .nil))
  have hno : Derives (rules x functions) [] [n .statements] s (returnTokens v) [.stmts .nil] s
      (returnTokens v) :=
    Derives.node (G := rules x functions) Rule.noStatements .nil rfl .nil
  have hone : Derives (rules x functions) [.stmts .nil] [n .statement] s (returnTokens v)
      [.stmts (returnStmt v)] s [] :=
    Derives.node (G := rules x functions) Rule.return hst rfl .nil
  have hall : Derives (rules x functions) [] [n .statements] s (returnTokens v)
      [.stmts (returnStmt v)] s [] :=
    Derives.node (G := rules x functions) Rule.moreStatements (hno.append hone) rfl .nil
  exact Derives.node (G := rules x functions) Rule.program hall rfl .nil

theorem program_unique {v : Var} (hv : Literal v) {s s' : PState} {ss : Stmts}
    (h : Derives (rules x functions) [] [n .program] s (returnTokens v) [.stmts ss] s' []) :
    ss = returnStmt v := by
  obtain ⟨m, h⟩ := h
  obtain ⟨rule, us, val, vs', s₁, s₂, j', m₁, m₂, hl, hm, hb, ha, hvs, hm₂, hs⟩ := h.reduce
  obtain ⟨rfl, -, rfl⟩ := hs.done
  have hrule := rule_for hl (by decide)
  simp only [rulesFor, List.mem_cons, List.not_mem_nil, or_false] at hrule
  subst hrule
  obtain ⟨left', us', m', -, ⟨-, hb'⟩ | ⟨rfl, hb'⟩⟩ := split_statements hv m₁ hb
  · obtain ⟨-, -, hi⟩ := hb'.done
    exact absurd hi (by simp [returnTokens])
  · obtain ⟨rfl, -, -⟩ := hb'.done
    obtain ⟨rfl, -⟩ := Prod.mk.inj (Option.some.inj ha)
    simpa using hvs

end

/-- Every literal is read back: the program that returns its text is accepted, and whatever
program it is accepted as returns the value. -/
theorem literal_read_back (x : Library) (hx : x.Ascii) (functions : List Str) (p : Printer)
    (v : Var) (hv : Literal v) :
    (∃ ss, Parses x functions (returning (valueToLiteral p v)) ss) ∧
      ∀ ss, Parses x functions (returning (valueToLiteral p v)) ss → evaluate ss = some v := by
  obtain ⟨L, hL, hq⟩ := tokens_returning hx p hv
  constructor
  · refine ⟨returnStmt v, ?_, startParse currentVersion, ?_, rfl⟩
    · rw [hL]
      exact hq
    · rw [hL]
      exact derives_program hv _
  · intro ss h
    obtain ⟨-, s, hd, -⟩ := h
    rw [hL] at hd
    rw [program_unique hv hd]
    exact evaluate_returning v

/-- The ASCII part of the character database. -/
def asciiLibrary : Library where
  isdigit ch := 48 ≤ ch ∧ ch ≤ 57
  digitval ch := ch-48
  isspace ch := ch = 32 ∨ 9 ≤ ch ∧ ch ≤ 13
  isXidStart ch := 65 ≤ ch ∧ ch ≤ 90 ∨ 97 ≤ ch ∧ ch ≤ 122
  isXidCont ch := (65 ≤ ch ∧ ch ≤ 90 ∨ 97 ≤ ch ∧ ch ≤ 122) ∨ 48 ≤ ch ∧ ch ≤ 57 ∨ ch = 95
  strtod _ := ⟨0⟩
  isReal _ := true
  zero := ⟨0⟩
  neg d := d

theorem asciiLibrary_ascii : asciiLibrary.Ascii := by
  constructor
  · intro b _
    simp only [asciiLibrary, Decimal.isDigit, Utf.int, ← Bool.decide_and, decide_eq_decide]
    omega
  · intro b _
    rfl
  · intro b _
    simp only [asciiLibrary, DbIo.isspace, Utf.int, ← Bool.decide_and, ← Bool.decide_or,
      decide_eq_decide, ← UInt8.toNat_inj, UInt8.reduceToNat]
    omega
  · intro b _
    simp only [asciiLibrary, isAlpha, Utf.int, ← Bool.decide_and, ← Bool.decide_or,
      decide_eq_decide]
    omega
  · intro b _
    simp only [asciiLibrary, isAlpha, Decimal.isDigit, Utf.int, ← Bool.decide_and,
      ← Bool.decide_or, decide_eq_decide, ← UInt8.toNat_inj, UInt8.reduceToNat]
    omega

/-- A list with the smallest integer, a negative object number, an error, an empty list and a
string of a quote, a backslash and a character of two bytes. -/
def nested : Var :=
  .list [.int (BitVec.ofInt 64 (-2^63)), .obj (-1), .err .float, .list [],
    .str (encode ['"', '\\', 'é'])]

theorem nested_literal : Literal nested := by
  simp only [nested, Literal, LiteralAll, and_true, true_and]
  exact ⟨⟨_, rfl⟩, by decide, by decide⟩

theorem literal_read_back_nested :
    asciiLibrary.Ascii ∧ Literal nested ∧
      (∃ ss, Parses asciiLibrary [] (returning (valueToLiteral ⟨fun _ => [], fun _ => (0, 0)⟩
        nested)) ss) ∧
      ∀ ss, Parses asciiLibrary [] (returning (valueToLiteral ⟨fun _ => [], fun _ => (0, 0)⟩
        nested)) ss → evaluate ss = some nested :=
  ⟨asciiLibrary_ascii, nested_literal,
    literal_read_back asciiLibrary asciiLibrary_ascii [] _ nested nested_literal⟩

end LambdaMoo.Parse
