import LambdaMoo.LiteralLex
import LambdaMoo.Parser

/-!
# The parse of a literal

The tokens of a literal have exactly one derivation in the whole grammar of
expressions: no operator can take part, since what follows a literal is a
delimiter, and no brace can begin a scattering assignment, since no element
is an optional target.
-/

set_option autoImplicit false

namespace LambdaMoo.Parse
open LambdaMoo.Grammar

mutual
def literalExpr : Var → Expr
  | .list vs => .list (literalArgs vs)
  | v => .var v
def literalArgs : List Var → ArgList
  | [] => .nil
  | v::vs => .cons .normal (literalExpr v) (literalArgs vs)
end

theorem append_nil : ∀ a : ArgList, a.append .nil = a
  | .nil => rfl
  | .cons k e a => congrArg (ArgList.cons k e) (append_nil a)

theorem append_assoc : ∀ a b c : ArgList, (a.append b).append c = a.append (b.append c)
  | .nil, _, _ => rfl
  | .cons k e a, b, c => congrArg (ArgList.cons k e) (append_assoc a b c)

theorem literalArgs_append (vs ws : List Var) :
    literalArgs (vs ++ ws) = (literalArgs vs).append (literalArgs ws) := by
  induction vs with
  | nil => rfl
  | cons v vs ih =>
    rw [List.cons_append, literalArgs, ih]
    rfl

section
variable {x : Library} {functions : List Str}

/-- An expression of one token. -/
theorem derives_constant {r : Rule} {k : Kind} {val : Val} {e : Expr} (hl : r.lhs = .expr)
    (hr : r.rhs = [t k]) (ha : ∀ left s, r.action x functions left [val] s = some (.expr e, s))
    {left vs : List Val} {γ : List Sym} {s s' : PState} {i j : List Token}
    (h : Derives (rules x functions) (.expr e::left) γ s i vs s' j) :
    Derives (rules x functions) left (n .expr::γ) s (⟨k, val⟩::i) (.expr e::vs) s' j := by
  have hb : Derives (rules x functions) [] r.rhs s (⟨k, val⟩::i) [val] s i := by
    rw [hr]
    exact .token ⟨k, val⟩ .nil
  exact hl ▸ .node r hb (ha left s) h

theorem derives_minus {m : Num} {left vs : List Val} {γ : List Sym} {s s' : PState}
    {i j : List Token}
    (h : Derives (rules x functions) (.expr (.var (.int m))::left) γ s i vs s' j) :
    Derives (rules x functions) left (n .expr::γ) s
      (chrToken '-'::⟨.tInteger, .integer (-m)⟩::i) (.expr (.var (.int m))::vs) s' j := by
  have hb : Derives (rules x functions) [] (Rule.rhs .unaryMinus) s
      (chrToken '-'::⟨.tInteger, .integer (-m)⟩::i) [.none, .expr (.var (.int (-m)))] s i :=
    .token (chrToken '-') (derives_constant (r := .integer) rfl rfl (fun _ _ => rfl) .nil)
  apply Derives.node (G := rules x functions) Rule.unaryMinus hb _ h
  change some (Val.expr (.var (.int (- -m))), s) = _
  rw [BitVec.neg_neg]

/-- One more element at the end of an argument list. -/
theorem derives_more {a : ArgList} {e : Expr} {s : PState} {i j k : List Token}
    (h : Derives (rules x functions) [] [n .neArglist] s i [.args a] s (chrToken ','::j))
    (he : Derives (rules x functions) [.none, .args a] [n .expr] s j [.expr e] s k) :
    Derives (rules x functions) [] [n .neArglist] s i
      [.args (a.append (.cons .normal e .nil))] s k := by
  have hb : Derives (rules x functions) [] (Rule.rhs .moreArgs) s i
      [.args a, .none, .expr e] s k := h.append (.token (chrToken ',') he)
  exact Derives.node (G := rules x functions) Rule.moreArgs hb rfl .nil

end

mutual
theorem derives_literal {x : Library} {functions : List Str} : ∀ (v : Var), Literal v →
    ∀ {left vs : List Val} {γ : List Sym} {s s' : PState} {i j : List Token},
    Derives (rules x functions) (.expr (literalExpr v)::left) γ s i vs s' j →
    Derives (rules x functions) left (n .expr::γ) s (literalTokens v ++ i)
      (.expr (literalExpr v)::vs) s' j
  | .int m, _, left, vs, γ, s, s', i, j, h => by
    rw [literalTokens]
    split
    · exact derives_minus h
    · exact derives_constant (r := .integer) rfl rfl (fun _ _ => rfl) h
  | .obj _, _, _, _, _, _, _, _, _, h => by
    rw [literalTokens]
    exact derives_constant (r := .object) rfl rfl (fun _ _ => rfl) h
  | .str _, _, _, _, _, _, _, _, _, h => by
    rw [literalTokens]
    exact derives_constant (r := .string) rfl rfl (fun _ _ => rfl) h
  | .err _, _, _, _, _, _, _, _, _, h => by
    rw [literalTokens]
    exact derives_constant (r := .error) rfl rfl (fun _ _ => rfl) h
  | .list ws, hv, left, vs, γ, s, s', i, j, h => by
    simp only [Literal] at hv
    rw [literalTokens, List.cons_append, List.append_assoc, List.singleton_append]
    have hb : Derives (rules x functions) [] (Rule.rhs .list) s
        (chrToken '{'::(elementTokens [] ws ++ chrToken '}'::i))
        [.none, .args (literalArgs ws), .none] s i := by
      apply Derives.token (chrToken '{')
      cases ws with
      | nil =>
        exact Derives.node (G := rules x functions) Rule.noArgs .nil rfl
          (.token (chrToken '}') .nil)
      | cons w ws =>
        simp only [LiteralAll] at hv
        have hone : Derives (rules x functions) [] [n .neArglist] s
            (literalTokens w ++ (elementTokens [chrToken ','] ws ++ chrToken '}'::i))
            [.args (literalArgs [w])] s (elementTokens [chrToken ','] ws ++ chrToken '}'::i) :=
          Derives.node (G := rules x functions) Rule.oneArg (derives_literal w hv.1 .nil) rfl .nil
        have hall := derives_rest ws hv.2 hone
        rw [elementTokens, List.nil_append, List.append_assoc]
        exact Derives.node (G := rules x functions) Rule.args hall rfl
          (.token (chrToken '}') .nil)
    exact Derives.node (G := rules x functions) Rule.list hb rfl h
  | .clear, hv, _, _, _, _, _, _, _, _ | .none, hv, _, _, _, _, _, _, _, _
  | .catch _, hv, _, _, _, _, _, _, _, _ | .finally _, hv, _, _, _, _, _, _, _, _
  | .float _, hv, _, _, _, _, _, _, _, _ | .waif _, hv, _, _, _, _, _, _, _, _ => by
    simp [Literal] at hv
/-- The elements after those of an argument list that is derived. -/
theorem derives_rest {x : Library} {functions : List Str} : ∀ (ws : List Var), LiteralAll ws →
    ∀ {a : ArgList} {s : PState} {i j : List Token},
    Derives (rules x functions) [] [n .neArglist] s i [.args a] s
      (elementTokens [chrToken ','] ws ++ j) →
    Derives (rules x functions) [] [n .neArglist] s i [.args (a.append (literalArgs ws))] s j
  | [], _, a, s, i, j, h => by
    rw [literalArgs, append_nil]
    simpa [elementTokens] using h
  | w::ws, hv, a, s, i, j, h => by
    simp only [LiteralAll] at hv
    rw [elementTokens, List.singleton_append, List.cons_append, List.cons_append,
      List.append_assoc] at h
    have hmore := derives_more h (derives_literal w hv.1 .nil)
    have hrest := derives_rest ws hv.2 hmore
    rw [append_assoc] at hrest
    exact hrest
end

/-! Nothing else is derived from these tokens. -/

def exprFirsts : List Kind :=
  [.tInteger, .tFloat, .tString, .tObject, .tError, .tId, .chr '$', .chr '{', .chr '-', .chr '~',
    .chr '!', .chr '(', .chr (Char.ofNat 96)]

/-- What the nonterminals start with that are never empty. -/
def firsts : Nt → List Kind
  | .expr => exprFirsts
  | .neArglist => .chr '@'::exprFirsts
  | .scatterItem => [.chr '?']
  | .scatter => .chr '?'::.chr '@'::exprFirsts
  | .statement => [.tIf, .tFor, .tWhile, .tFork, .tBreak, .tContinue, .tReturn, .tTry, .chr ';']
      ++ exprFirsts
  | _ => []

def solid (nt : Nt) : Bool := nt ∈ [Nt.expr, .neArglist, .scatterItem, .scatter, .statement]

def startsWell (r : Rule) : Bool :=
  match r.rhs with
  | .token k::_ => k ∈ firsts r.lhs
  | .node nt::_ => solid nt && firsts nt ⊆ firsts r.lhs
  | [] => false

theorem solid_starts (r : Rule) (h : solid r.lhs = true) : startsWell r = true := by
  cases r with
  | binary op => cases op <;> decide
  | _ => first | exact absurd h (by decide) | decide

theorem starts {x : Library} {functions : List Str} (nt : Nt) (hn : solid nt = true) {m : ℕ}
    {left vs : List Val} {γ : List Sym} {s s' : PState} {i j : List Token}
    (h : Derivation (rules x functions) m left (n nt::γ) s i vs s' j) :
    ∃ t i', i = t::i' ∧ t.kind ∈ firsts nt := by
  apply Derivation.first (F := fun nt => {k | k ∈ firsts nt}) (P := {nt | solid nt = true}) _ hn h
  intro r hr
  have hs := solid_starts r hr
  rw [startsWell] at hs
  change (∃ k γ, Rule.rhs r = _ ∧ _) ∨ _
  split at hs
  · next k δ heq => exact .inl ⟨k, δ, heq, of_decide_eq_true hs⟩
  · next nt δ heq =>
    rw [Bool.and_eq_true] at hs
    have hsub : firsts nt ⊆ firsts r.lhs := of_decide_eq_true hs.2
    exact .inr ⟨nt, δ, heq, hs.1, fun k hk => hsub hk⟩
  · exact absurd hs (by decide)

def delimiters : List Kind := [.chr ',', .chr '}', .chr ';']

def Delimited (r : List Token) : Prop := ∃ t r', r = t::r' ∧ t.kind ∈ delimiters

/-- Whatever derivation of size `m` begins with `nt` on the input `i` reads up to `r`, has the
value `val` for it and leaves the state as it is. -/
def Forces (x : Library) (functions : List Str) (m : ℕ) (nt : Nt) (i : List Token) (val : Val)
    (r : List Token) : Prop :=
  ∀ ⦃left vs : List Val⦄ ⦃γ : List Sym⦄ ⦃s s' : PState⦄ ⦃k : List Token⦄,
    Derivation (rules x functions) m left (n nt::γ) s i vs s' k →
    ∃ left' vs' m', m' < m ∧ vs = val::vs' ∧
      Derivation (rules x functions) m' left' γ s r vs' s' k

/-- A rule for expressions either continues an expression with no delimiter, or begins with a
token. -/
def exprShape (r : Rule) : Bool :=
  match r.rhs with
  | .node .expr::.token k::_ => k ∉ delimiters
  | .token _::_ => true
  | _ => false

theorem exprShape_rule (r : Rule) (h : r.lhs = .expr) : exprShape r = true := by
  cases r with
  | binary op => cases op <;> decide
  | _ => first | exact absurd h (by decide) | decide

section
variable {x : Library} {functions : List Str}

/-- A derivation of an expression from a text that forces its expressions uses a rule that
begins with the first token. -/
theorem reduce_expr {m : ℕ} {tok : Token} {i r : List Token} {val : Val} (hd : Delimited r)
    (hF : ∀ m' < m, Forces x functions m' .expr (tok::i) val r) {left vs : List Val}
    {γ : List Sym} {s s' : PState} {k : List Token}
    (h : Derivation (rules x functions) m left (n .expr::γ) s (tok::i) vs s' k) :
    ∃ (rule : Rule) (δ : List Sym) (us : List Val) (v : Val) (vs' : List Val) (s₁ s₂ : PState)
      (j : List Token) (m₁ m₂ : ℕ), rule.lhs = .expr ∧ rule.rhs = t tok.kind::δ ∧
      Derivation (rules x functions) m₁ [tok.val] δ s i us s₁ j ∧
      rule.action x functions left (tok.val::us) s₁ = some (v, s₂) ∧ vs = v::vs' ∧ m₂ < m ∧
      Derivation (rules x functions) m₂ (v::left) γ s₂ j vs' s' k := by
  obtain ⟨rule, us, v, vs', s₁, s₂, j, m₁, m₂, hl, hm, hb, ha, rfl, hm₂, hs⟩ := h.reduce
  have hshape := exprShape_rule rule hl
  change Derivation (rules x functions) m₁ [] rule.rhs s (tok::i) us s₁ j at hb
  rw [exprShape] at hshape
  split at hshape
  · next κ δ heq =>
    rw [heq] at hb
    obtain ⟨left', us', m', -, -, hb'⟩ := hF m₁ hm hb
    obtain ⟨t', i', -, -, rfl, hr, -⟩ := hb'.shift
    obtain ⟨t'', r', hr', ht⟩ := hd
    obtain ⟨rfl, -⟩ : t' = t'' ∧ i' = r' := by simpa using hr.symm.trans hr'
    exact absurd ht (of_decide_eq_true hshape)
  · next κ δ heq =>
    rw [heq] at hb
    obtain ⟨t', i', us', m', rfl, hi, rfl, -, hb'⟩ := hb.shift
    obtain ⟨rfl, rfl⟩ : tok = t' ∧ i = i' := by simpa using hi
    exact ⟨rule, δ, us', v, vs', s₁, s₂, j, m', m₂, hl, heq, hb', ha, rfl, hm₂, hs⟩
  · exact absurd hshape (by decide)

def headKind (r : Rule) : Option Kind :=
  match r.rhs with
  | .token k::_ => some k
  | _ => none

/-- The rules of a constant, of the minus sign and of the opening brace. -/
def headed : List (Kind × List Rule) :=
  [(.tInteger, [.integer]), (.tString, [.string]), (.tObject, [.object]), (.tError, [.error]),
    (.chr '-', [.unaryMinus]), (.chr '{', [.list, .scatterAssign])]

theorem headed_rule (r : Rule) : r.lhs = .expr → ∀ p ∈ headed, headKind r = some p.1 → r ∈ p.2 := by
  cases r with
  | binary op => cases op <;> decide
  | _ => decide

theorem rule_headed {r : Rule} {k : Kind} {δ : List Sym} {rs : List Rule} (hl : r.lhs = .expr)
    (hr : r.rhs = t k::δ) (hk : (k, rs) ∈ headed) : r ∈ rs := by
  apply headed_rule r hl (k, rs) hk
  rw [headKind, hr]
  rfl

theorem forces_constant {r : Rule} {k : Kind} {val : Val} {e : Expr} (hr : r.rhs = [t k])
    (hk : (k, [r]) ∈ headed)
    (ha : ∀ left s, r.action x functions left [val] s = some (.expr e, s)) {i : List Token}
    (hi : Delimited i) (m : ℕ) : Forces x functions m .expr (⟨k, val⟩::i) (.expr e) i := by
  induction m using Nat.strong_induction_on with
  | _ m ih =>
    intro left vs γ s s' j h
    obtain ⟨rule, δ, us, v, vs', s₁, s₂, j', m₁, m₂, hl, hr', hb, ha', rfl, hm, hs⟩ :=
      reduce_expr hi ih h
    obtain rfl : rule = r := by simpa using rule_headed hl hr' hk
    obtain rfl : [] = δ := by simpa using hr.symm.trans hr'
    obtain ⟨rfl, rfl, rfl⟩ := hb.done
    obtain ⟨rfl, rfl⟩ : Val.expr e = v ∧ s₁ = s₂ := by simpa using (ha left s₁).symm.trans ha'
    exact ⟨_, vs', m₂, hm, rfl, hs⟩

theorem forces_minus (w : Num) {i : List Token} (hi : Delimited i) (m : ℕ) :
    Forces x functions m .expr (chrToken '-'::⟨.tInteger, .integer (-w)⟩::i)
      (.expr (.var (.int w))) i := by
  induction m using Nat.strong_induction_on with
  | _ m ih =>
    intro left vs γ s s' j h
    obtain ⟨rule, δ, us, v, vs', s₁, s₂, j', m₁, m₂, hl, hr, hb, ha, rfl, hm, hs⟩ :=
      reduce_expr hi ih h
    have hmem : rule ∈ [Rule.unaryMinus] := rule_headed hl hr (by decide)
    obtain rfl : rule = .unaryMinus := by simpa using hmem
    obtain rfl : [n .expr] = δ := (List.cons.inj hr).2
    obtain ⟨left', us', m', -, rfl, hb'⟩ :=
      forces_constant (r := .integer) rfl (by decide) (fun _ _ => rfl) hi m₁ hb
    obtain ⟨rfl, rfl, rfl⟩ := hb'.done
    have ha' : some (Val.expr (.var (.int (- -w))), s₁) = some (v, s₂) := ha
    rw [BitVec.neg_neg] at ha'
    obtain ⟨rfl, rfl⟩ : Val.expr (.var (.int w)) = v ∧ s₁ = s₂ := by simpa using ha'
    exact ⟨_, vs', m₂, hm, rfl, hs⟩

theorem literalTokens_head {v : Var} (hv : Literal v) :
    ∃ tok i, literalTokens v = tok::i ∧ tok.kind ∈ headed.map Prod.fst := by
  cases v with
  | int w =>
    rw [literalTokens]
    split
    · exact ⟨_, _, rfl, by decide⟩
    · exact ⟨_, _, rfl, by simp [headed]⟩
  | list vs => exact ⟨_, _, by rw [literalTokens], by decide⟩
  | obj w => exact ⟨_, _, by rw [literalTokens], by simp [headed]⟩
  | str w => exact ⟨_, _, by rw [literalTokens], by simp [headed]⟩
  | err w => exact ⟨_, _, by rw [literalTokens], by simp [headed]⟩
  | _ => simp [Literal] at hv

/-- No literal begins with a token that its grammar does not give it. -/
theorem not_shift {v : Var} (hv : Literal v) {k : Kind} (hk : k ∉ headed.map Prod.fst) {m : ℕ}
    {left vs : List Val} {γ : List Sym} {s s' : PState} {i j : List Token}
    (h : Derivation (rules x functions) m left (t k::γ) s (literalTokens v ++ i) vs s' j) :
    False := by
  obtain ⟨tok, i', hv', ht⟩ := literalTokens_head hv
  obtain ⟨t', i'', _, _, rfl, hi, -⟩ := h.shift
  rw [hv', List.cons_append] at hi
  obtain ⟨rfl, -⟩ := List.cons.inj hi
  exact hk ht

/-- The tokens from a separator on, up to the brace that ends the list. -/
def restTokens (ws : List Var) (i : List Token) : List Token :=
  elementTokens [chrToken ','] ws ++ chrToken '}'::i

theorem restTokens_nil (i : List Token) : restTokens [] i = chrToken '}'::i := by
  rw [restTokens, elementTokens, List.nil_append]

theorem restTokens_cons (w : Var) (ws : List Var) (i : List Token) :
    restTokens (w::ws) i = chrToken ','::(literalTokens w ++ restTokens ws i) := by
  simp only [restTokens, elementTokens, List.cons_append, List.append_assoc, List.nil_append]

theorem restTokens_delimited (ws : List Var) (i : List Token) : Delimited (restTokens ws i) := by
  cases ws with
  | nil => exact ⟨_, _, restTokens_nil i, by decide⟩
  | cons w ws => exact ⟨_, _, restTokens_cons w ws i, by decide⟩

/-- After the elements, a comma is shifted when there is one more element. -/
theorem shift_comma {ws : List Var} {i : List Token} {m : ℕ} {left vs : List Val} {γ : List Sym}
    {s s' : PState} {j : List Token}
    (h : Derivation (rules x functions) m left (c ','::γ) s (restTokens ws i) vs s' j) :
    ∃ w ws' vs' m', ws = w::ws' ∧ vs = .none::vs' ∧ m' < m ∧
      Derivation (rules x functions) m' (.none::left) γ s (literalTokens w ++ restTokens ws' i) vs'
        s' j := by
  obtain ⟨t', i', vs', m', ht, hi, rfl, hm, hb⟩ := h.shift
  cases ws with
  | nil =>
    rw [restTokens_nil] at hi
    obtain ⟨rfl, -⟩ := List.cons.inj hi
    exact absurd ht (by decide)
  | cons w ws =>
    rw [restTokens_cons] at hi
    obtain ⟨rfl, rfl⟩ := List.cons.inj hi
    exact ⟨w, ws, vs', m', rfl, rfl, hm, hb⟩

/-- The rules of the nonterminals that a literal in a program reaches, besides `expr`. -/
def rulesFor : Nt → List Rule
  | .program => [.program]
  | .statements => [.noStatements, .moreStatements]
  | .arglist => [.noArgs, .args]
  | .neArglist => [.oneArg, .oneSplice, .moreArgs, .moreSplices]
  | .scatter => [.scatterArgs, .moreItems, .moreIds, .moreRests, .oneItem]
  | _ => []

theorem rule_for {r : Rule} {nt : Nt} (hr : r.lhs = nt)
    (hn : nt ∈ [Nt.program, .statements, .arglist, .neArglist, .scatter]) : r ∈ rulesFor nt := by
  subst hr
  revert hn
  cases r with
  | binary op => exact fun h => absurd h (show Nt.expr ∉ _ by decide)
  | _ => decide

def Forced (x : Library) (functions : List Str) (v : Var) : Prop :=
  Literal v ∧ ∀ m i, Delimited i →
    Forces x functions m .expr (literalTokens v ++ i) (.expr (literalExpr v)) i

/-- An argument list takes some of the elements, from the first on. -/
theorem split_args {v : Var} {ws : List Var} (H : ∀ u ∈ v::ws, Forced x functions u)
    {i : List Token} (m : ℕ) {left vs : List Val} {γ : List Sym} {s s' : PState} {j : List Token}
    (h : Derivation (rules x functions) m left (n .neArglist::γ) s
      (literalTokens v ++ restTokens ws i) vs s' j) :
    ∃ us ts left' vs' m', m' < m ∧ ws = us ++ ts ∧ vs = .args (literalArgs (v::us))::vs' ∧
      Derivation (rules x functions) m' left' γ s (restTokens ts i) vs' s' j := by
  induction m using Nat.strong_induction_on generalizing left vs γ s s' j with
  | _ m ih =>
    obtain ⟨rule, us₀, val, vs', s₁, s₂, j', m₁, m₂, hl, hm, hb, ha, rfl, hm₂, hs⟩ := h.reduce
    have hv := H v List.mem_cons_self
    have hrule := rule_for hl (by decide)
    simp only [rulesFor, List.mem_cons, List.not_mem_nil, or_false] at hrule
    obtain rfl | rfl | rfl | rfl := hrule
    · obtain ⟨left', us', m', -, rfl, hb'⟩ := hv.2 m₁ _ (restTokens_delimited ws i) hb
      obtain ⟨rfl, rfl, rfl⟩ := hb'.done
      have ha' : some (Val.args (literalArgs [v]), s₁) = some (val, s₂) := ha
      obtain ⟨rfl, rfl⟩ := Prod.mk.inj (Option.some.inj ha')
      exact ⟨[], ws, _, vs', m₂, hm₂, rfl, rfl, hs⟩
    · exact (not_shift hv.1 (by decide) hb).elim
    · obtain ⟨us, ts, left', us', m', -, rfl, rfl, hb'⟩ := ih m₁ hm hb
      obtain ⟨w, ts, us₁, m₃, rfl, rfl, -, hb₁⟩ := shift_comma hb'
      obtain ⟨left'', us₂, m₄, -, rfl, hb₂⟩ :=
        (H w (by simp)).2 m₃ _ (restTokens_delimited ts i) hb₁
      obtain ⟨rfl, rfl, rfl⟩ := hb₂.done
      have ha' : some (Val.args ((literalArgs (v::us)).append (literalArgs [w])), s₁) =
          some (val, s₂) := ha
      rw [← literalArgs_append] at ha'
      obtain ⟨rfl, rfl⟩ := Prod.mk.inj (Option.some.inj ha')
      exact ⟨us ++ [w], ts, _, vs', m₂, hm₂, by simp, rfl, hs⟩
    · obtain ⟨us, ts, left', us', m', -, rfl, rfl, hb'⟩ := ih m₁ hm hb
      obtain ⟨w, ts, us₁, m₃, rfl, rfl, -, hb₁⟩ := shift_comma hb'
      exact (not_shift (H w (by simp)).1 (by decide) hb₁).elim

theorem not_start (nt : Nt) (hn : solid nt = true) {tok : Token} (ht : tok.kind ∉ firsts nt) {m : ℕ}
    {left vs : List Val} {γ : List Sym} {s s' : PState} {i j : List Token}
    (h : Derivation (rules x functions) m left (n nt::γ) s (tok::i) vs s' j) : False := by
  obtain ⟨t', i', hi, ht'⟩ := starts nt hn h
  obtain ⟨rfl, -⟩ := List.cons.inj hi
  exact ht ht'

/-- No literal is an optional target of a scattering assignment. -/
theorem not_scatterItem {v : Var} (hv : Literal v) {m : ℕ} {left vs : List Val} {γ : List Sym}
    {s s' : PState} {i j : List Token}
    (h : Derivation (rules x functions) m left (n .scatterItem::γ) s (literalTokens v ++ i) vs s'
      j) : False := by
  obtain ⟨tok, i', hv', ht⟩ := literalTokens_head hv
  rw [hv', List.cons_append] at h
  have hall : ∀ k ∈ headed.map Prod.fst, k ∉ firsts .scatterItem := by decide
  exact not_start .scatterItem rfl (hall _ ht) h

/-- The tokens of a list after its opening brace. -/
def firstTokens (ws : List Var) (i : List Token) : List Token :=
  elementTokens [] ws ++ chrToken '}'::i

theorem firstTokens_nil (i : List Token) : firstTokens [] i = chrToken '}'::i := by
  rw [firstTokens, elementTokens, List.nil_append]

theorem firstTokens_cons (w : Var) (ws : List Var) (i : List Token) :
    firstTokens (w::ws) i = literalTokens w ++ restTokens ws i := by
  simp only [firstTokens, restTokens, elementTokens, List.append_assoc, List.nil_append]

theorem not_scatter {ws : List Var} (H : ∀ u ∈ ws, Forced x functions u) {i : List Token} (m : ℕ)
    {left vs : List Val} {γ : List Sym} {s s' : PState} {j : List Token}
    (h : Derivation (rules x functions) m left (n .scatter::γ) s (firstTokens ws i) vs s' j) :
    False := by
  induction m using Nat.strong_induction_on generalizing left vs γ s s' j with
  | _ m ih =>
    obtain ⟨rule, us₀, val, vs', s₁, s₂, j', m₁, m₂, hl, hm, hb, -⟩ := h.reduce
    have hrule := rule_for hl (by decide)
    simp only [rulesFor, List.mem_cons, List.not_mem_nil, or_false] at hrule
    obtain rfl | rfl | rfl | rfl | rfl := hrule
    · cases ws with
      | nil =>
        rw [firstTokens_nil] at hb
        exact not_start .neArglist rfl (by decide) hb
      | cons v ws =>
        rw [firstTokens_cons] at hb
        obtain ⟨us, ts, left', us', m', -, rfl, rfl, hb'⟩ := split_args H m₁ hb
        obtain ⟨w, ts, us₁, m₃, rfl, rfl, -, hb₁⟩ := shift_comma hb'
        exact not_scatterItem (H w (by simp)).1 hb₁
    · exact ih m₁ hm hb
    · exact ih m₁ hm hb
    · exact ih m₁ hm hb
    · cases ws with
      | nil =>
        rw [firstTokens_nil] at hb
        exact not_start .scatterItem rfl (by decide) hb
      | cons v ws =>
        rw [firstTokens_cons] at hb
        exact not_scatterItem (H v List.mem_cons_self).1 hb

/-- An argument list that a brace ends takes all the elements. -/
theorem forces_arglist {ws : List Var} (H : ∀ u ∈ ws, Forced x functions u) {i : List Token}
    {m : ℕ} {left vs : List Val} {γ : List Sym} {s s' : PState} {j : List Token}
    (h : Derivation (rules x functions) m left (n .arglist::c '}'::γ) s (firstTokens ws i) vs s'
      j) :
    ∃ left' vs' m', m' < m ∧ vs = .args (literalArgs ws)::.none::vs' ∧
      Derivation (rules x functions) m' left' γ s i vs' s' j := by
  obtain ⟨rule, us₀, val, vs', s₁, s₂, j', m₁, m₂, hl, hm, hb, ha, rfl, hm₂, hs⟩ := h.reduce
  obtain ⟨t', i', vs'', m₃, ht, rfl, rfl, hm₃, hs'⟩ := hs.shift
  have hrule := rule_for hl (by decide)
  simp only [rulesFor, List.mem_cons, List.not_mem_nil, or_false] at hrule
  obtain rfl | rfl := hrule
  · obtain ⟨rfl, rfl, hj⟩ := Derivation.done hb
    obtain ⟨rfl, rfl⟩ := Prod.mk.inj (Option.some.inj ha)
    cases ws with
    | nil =>
      rw [firstTokens_nil] at hj
      obtain ⟨rfl, rfl⟩ := List.cons.inj hj
      exact ⟨_, vs'', m₃, hm₃.trans hm₂, rfl, hs'⟩
    | cons v ws =>
      obtain ⟨tok, i'', hv', hk⟩ := literalTokens_head (H v List.mem_cons_self).1
      rw [firstTokens_cons, hv', List.cons_append] at hj
      obtain ⟨rfl, -⟩ := List.cons.inj hj
      rw [ht] at hk
      exact absurd hk (by decide)
  · cases ws with
    | nil =>
      rw [firstTokens_nil] at hb
      exact (not_start .neArglist rfl (by decide) hb).elim
    | cons v ws =>
      rw [firstTokens_cons] at hb
      obtain ⟨us, ts, left', us', m', -, rfl, rfl, hb'⟩ := split_args H m₁ hb
      obtain ⟨rfl, rfl, hj⟩ := hb'.done
      obtain ⟨rfl, rfl⟩ := Prod.mk.inj (Option.some.inj ha)
      cases ts with
      | nil =>
        rw [restTokens_nil] at hj
        obtain ⟨rfl, rfl⟩ := List.cons.inj hj
        exact ⟨_, vs'', m₃, hm₃.trans hm₂, by rw [List.append_nil]; rfl, hs'⟩
      | cons w ts =>
        rw [restTokens_cons] at hj
        obtain ⟨rfl, -⟩ := List.cons.inj hj
        exact absurd ht (by decide)

theorem forces_list {ws : List Var} (H : ∀ u ∈ ws, Forced x functions u) {i : List Token}
    (hi : Delimited i) (m : ℕ) :
    Forces x functions m .expr (chrToken '{'::firstTokens ws i) (.expr (.list (literalArgs ws)))
      i := by
  induction m using Nat.strong_induction_on with
  | _ m ih =>
    intro left vs γ s s' j h
    obtain ⟨rule, δ, us, v, vs', s₁, s₂, j', m₁, m₂, hl, hr, hb, ha, rfl, hm, hs⟩ :=
      reduce_expr hi ih h
    have hmem : rule ∈ [Rule.list, .scatterAssign] := rule_headed hl hr (by decide)
    simp only [List.mem_cons, List.not_mem_nil, or_false] at hmem
    obtain rfl | rfl := hmem
    · obtain rfl : [n .arglist, c '}'] = δ := (List.cons.inj hr).2
      obtain ⟨left', us', m', -, rfl, hb'⟩ := forces_arglist H hb
      obtain ⟨rfl, rfl, rfl⟩ := hb'.done
      obtain ⟨rfl, rfl⟩ := Prod.mk.inj (Option.some.inj ha)
      exact ⟨_, vs', m₂, hm, rfl, hs⟩
    · obtain rfl : [n .scatter, c '}', c '=', n .expr] = δ := (List.cons.inj hr).2
      exact (not_scatter H m₁ hb).elim

end

mutual
theorem forced_literal {x : Library} {functions : List Str} :
    ∀ v : Var, Literal v → Forced x functions v
  | .int w, hv => ⟨hv, fun m i hi => by
      rw [literalTokens]
      split
      · exact forces_minus w hi m
      · exact forces_constant (r := .integer) rfl (by decide) (fun _ _ => rfl) hi m⟩
  | .obj _, hv => ⟨hv, fun m i hi => by
      rw [literalTokens]
      exact forces_constant (r := .object) rfl (by decide) (fun _ _ => rfl) hi m⟩
  | .str _, hv => ⟨hv, fun m i hi => by
      rw [literalTokens]
      exact forces_constant (r := .string) rfl (by decide) (fun _ _ => rfl) hi m⟩
  | .err _, hv => ⟨hv, fun m i hi => by
      rw [literalTokens]
      exact forces_constant (r := .error) rfl (by decide) (fun _ _ => rfl) hi m⟩
  | .list ws, hv => ⟨hv, fun m i hi => by
      have H : ∀ u ∈ ws, Forced x functions u := forced_all ws (by simpa [Literal] using hv)
      rw [literalTokens, List.cons_append, List.append_assoc, List.singleton_append]
      exact forces_list H hi m⟩
  | .clear, hv | .none, hv | .catch _, hv | .finally _, hv | .float _, hv | .waif _, hv => by
    simp [Literal] at hv
theorem forced_all {x : Library} {functions : List Str} :
    ∀ ws : List Var, LiteralAll ws → ∀ u ∈ ws, Forced x functions u
  | [], _, u, hu => absurd hu List.not_mem_nil
  | w::ws, hv, u, hu => by
    simp only [LiteralAll] at hv
    obtain hu | hu := List.mem_cons.mp hu
    · rw [hu]
      exact forced_literal w hv.1
    · exact forced_all ws hv.2 u hu
end

end LambdaMoo.Parse
