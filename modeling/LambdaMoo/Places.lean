import LambdaMoo.Simulation

/-!
# Left-hand sides

The code of an expression starts with something other than `OP_POP`. The parts
of a left-hand side are evaluated onto the stack, and the value that is
assigned is put into one part after the other.
-/

set_option autoImplicit false

namespace LambdaMoo.Run
open LambdaMoo.Execute LambdaMoo.CodeGen

/-! ## Where code starts -/

section Starts
variable {σ : Type} {s : Setting σ} {d : ℕ} {saved : Option ℕ} {a a' : ℕ}

theorem starts_var {x : Var} (h : CodeVar s.T s.v d x a a') : s.Starts a := by
  rcases h with ⟨n, -, -, hi⟩ | ⟨-, slot, -, hi⟩
  · exact starts_of_instr hi (by simp)
  · exact starts_of_instr hi (by simp)

mutual
/-- The code of an expression starts with no `OP_POP`. -/
theorem starts_expr {d : ℕ} {saved : Option ℕ} (e : Expr) {a a' : ℕ}
    (h : CodeExpr s.T s.v d saved e a a') : s.Starts a := by
  cases e with
  | var x => exact starts_var h
  | id slot => exact starts_of_instr h (by simp)
  | and lhs rhs | or lhs rhs =>
    obtain ⟨b, c, h, -⟩ := h
    exact starts_expr lhs h
  | unary op arg =>
    obtain ⟨b, h, -⟩ := h
    exact starts_expr arg h
  | binary op lhs rhs =>
    obtain ⟨b, c, h, -⟩ := h
    exact starts_expr lhs h
  | prop obj name =>
    obtain ⟨b, c, h, -⟩ := h
    exact starts_expr obj h
  | index base index =>
    obtain ⟨b, c, h, -⟩ := h
    exact starts_expr base h
  | range base lo hi =>
    obtain ⟨b, c, x, h, -⟩ := h
    exact starts_expr base h
  | length =>
    obtain ⟨index, -, hi⟩ := h
    exact starts_of_instr hi (by simp)
  | list args => exact starts_argList args h
  | call func args =>
    obtain ⟨b, h, -⟩ := h
    exact starts_argList args h
  | verb obj name args =>
    obtain ⟨b, c, x, h, -⟩ := h
    exact starts_expr obj h
  | cond condition consequent alternate =>
    obtain ⟨b, c, x, y, h, -⟩ := h
    exact starts_expr condition h
  | «catch» body codes default =>
    obtain ⟨b, c, x, y, z, h, -⟩ := h
    exact starts_codes codes h
  | scatter sc => exact h.elim
  | asgn lhs rhs =>
    cases lhs with
    | scatter sc =>
      obtain ⟨b, c, targets, h, -⟩ := h
      exact starts_expr rhs h
    | _ =>
      obtain ⟨b, c, h, hrhs, -⟩ := h
      rcases starts_lvalue _ h with h | rfl
      · exact h
      · exact starts_expr rhs hrhs
theorem starts_argList {d : ℕ} {saved : Option ℕ} (args : ArgList) {a a' : ℕ}
    (h : CodeArgList s.T s.v d saved args a a') : s.Starts a := by
  cases args with
  | nil => exact starts_of_instr h (by simp)
  | cons kind expr next =>
    obtain ⟨b, c, h, -⟩ := h
    exact starts_expr expr h
theorem starts_codes {d : ℕ} {saved : Option ℕ} (args : ArgList) {a a' : ℕ}
    (h : CodeCodes s.T s.v d saved args a a') : s.Starts a := by
  cases args with
  | nil => exact starts_of_instr h (by simp)
  | cons kind expr next =>
    obtain ⟨b, c, h, -⟩ := h
    exact starts_expr expr h
theorem starts_lvalue {d : ℕ} {saved : Option ℕ} (e : Expr) {above : Bool} {a a' : ℕ}
    (h : CodeLvalue s.T s.v d saved e above a a') : s.Starts a ∨ a = a' := by
  cases e with
  | range base lo hi =>
    obtain ⟨b, c, h, hlo, -⟩ := h
    rcases starts_lvalue base h with h | rfl
    · exact .inl h
    · exact .inl (starts_expr lo hlo)
  | index base index =>
    obtain ⟨b, c, h, hindex, -⟩ := h
    rcases starts_lvalue base h with h | rfl
    · exact .inl h
    · exact .inl (starts_expr index hindex)
  | id slot =>
    cases above with
    | true => exact .inl (starts_of_instr h (by simp))
    | false => exact .inr h
  | prop obj name =>
    obtain ⟨b, c, h, -⟩ := h
    exact .inl (starts_expr obj h)
  | _ => exact h.elim
end

end Starts

/-! ## Where `$` is found -/

/-- The stack has the depth that the code is for, and `$` is the length of the value at the index
that was saved. -/
structure Sits (d : ℕ) (saved : Option ℕ) (dollar : Option Var) (st : List Var) : Prop where
  depth : st.length = d
  value : ∀ i, saved = some i → ∃ w, dollar = some w ∧ st.reverse[i]? = some w

section Sits
variable {d : ℕ} {saved : Option ℕ} {dollar : Option Var} {st : List Var}

theorem Sits.push (h : Sits d saved dollar st) (w : Var) : Sits (d+1) saved dollar (w::st) := by
  constructor
  · rw [List.length_cons, h.depth]
  · intro i hi
    obtain ⟨u, hu, hget⟩ := h.value i hi
    refine ⟨u, hu, ?_⟩
    rw [List.reverse_cons, List.getElem?_append_left]
    · exact hget
    · exact (List.getElem?_eq_some_iff.mp hget).1

theorem Sits.pushes (h : Sits d saved dollar st) (ws : List Var) :
    Sits (d+ws.length) saved dollar (ws++st) := by
  induction ws with
  | nil => exact h
  | cons w ws ih => exact ih.push w

theorem sits_over (h : st.length = d) (w : Var) : Sits (d+1) (some d) (some w) (w::st) := by
  constructor
  · rw [List.length_cons, h]
  · intro i hi
    obtain rfl := Option.some.inj hi
    refine ⟨w, rfl, ?_⟩
    rw [List.reverse_cons, List.getElem?_append_right (by rw [List.length_reverse, h])]
    simp [h]

end Sits

/-! ## Left-hand sides -/

namespace Place

/-- What is on the stack for a left-hand side. -/
def operands : Place → List Var
  | .id _ => []
  | .prop obj name => [name, obj]
  | .index outer base i => i::base::outer.operands
  | .range outer base lo hi => hi::lo::base::outer.operands

/-- A range is not a part that has parts. -/
def Readable : Place → Prop
  | .range _ _ _ _ => False
  | _ => True

end Place

def Shape : Expr → Place → Prop
  | .id slot, .id slot' => slot = slot'
  | .prop _ _, .prop _ _ => True
  | .index base _, .index outer _ _ => Shape base outer ∧ outer.Readable
  | .range base _ _, .range outer _ _ _ => Shape base outer ∧ outer.Readable
  | _, _ => False

theorem shape_depth {e : Expr} {p : Place} (h : Shape e p) :
    lvalueDepth e false = p.operands.length ∧
      (p.Readable → lvalueDepth e true = p.operands.length+1) := by
  fun_induction Shape e p with
  | case1 | case2 => exact ⟨rfl, fun _ => rfl⟩
  | case3 base index outer v i ih | case4 base lo hi outer v i j ih =>
    have := (ih h.1).2 h.2
    constructor
    · simp [lvalueDepth, Place.operands, this]
    · intro hr
      first
      | exact hr.elim
      | simp [lvalueDepth, Place.operands, this]
  | case5 => exact h.elim

/-- The instruction behind a left-hand side that has parts. -/
def readInstr : Expr → Instr
  | .id slot => .push slot
  | .prop _ _ => .pushGetProp
  | _ => .pushRef

theorem lvalue_above {T : Tables} {v : Vec} {d : ℕ} {saved : Option ℕ} {e : Expr} {a a' : ℕ}
    (h : CodeLvalue T v d saved e true a a') : ∃ b, CodeLvalue T v d saved e false a b ∧
      ((∃ base lo hi, e = .range base lo hi) ∧ b = a' ∨ ∃ k, v.instr k (readInstr e) b a') := by
  cases e with
  | range base lo hi => exact ⟨a', h, .inl ⟨⟨base, lo, hi, rfl⟩, rfl⟩⟩
  | index base index =>
    obtain ⟨b, c, h1, h2, h3⟩ := h
    exact ⟨c, ⟨b, c, h1, h2, rfl⟩, .inr ⟨_, h3⟩⟩
  | id slot => exact ⟨a, rfl, .inr ⟨_, h⟩⟩
  | prop obj name =>
    obtain ⟨b, c, h1, h2, h3⟩ := h
    exact ⟨c, ⟨b, c, h1, h2, rfl⟩, .inr ⟨_, h3⟩⟩
  | _ => exact h.elim

section Preservation
variable {σ : Type} [FloatOps] {s : Setting σ}

/-- The operands of a left-hand side are on the stack. -/
def AtPlace (a : ℕ) (st : List Var) (e : Expr) (p : Place) (f : Frame σ) (y : Activ (Regs σ)) :
    Prop :=
  Shape e p ∧ (∀ w ∈ p.operands, unmarked w) ∧ f.Clean ∧ ∃ t, y = ⟨a, p.operands++st, f.regs t⟩

section Places
variable {d k a a' : ℕ} {saved : Option ℕ} {dollar : Option Var} {st st' : List Var}
  {f : Frame σ} {t w : Var} {e : Expr} {p : Place} {i : Instr}

theorem ends_at {c : Call σ} (hi : s.v.instr d i a a')
    (he : execInstr s.host s.T s.v.bc i ⟨a', st', f.regs t⟩ =
      call ⟨a', st', f.regs t⟩ st c)
    (hk : Answers c) (hf : f.Clean) : s.Ends ⟨a, st', f.regs t⟩ st (s.At a' st) (Eval.call s.host c f) :=
  (ends_call hi he hk hf).mono fun _ _ _ h => h.landed.at

omit [FloatOps] in
theorem given_variable {v : Var} (h : unmarked v) : Given (variableValue v) := by
  cases v with
  | none => exact .err .varnf
  | _ => exact .ok h

theorem ends_read (hs : Shape e p) (hp : ∀ w ∈ p.operands, unmarked w)
    (hi : s.v.instr d (readInstr e) a a') (hf : f.Clean) :
    s.Ends ⟨a, p.operands++st, f.regs t⟩ st
      (fun w g y => p.Readable ∧ Setting.Top t a' (p.operands++st) w g y)
      (readPlace s.host p f) := by
  have lower : ∀ {c : Call σ}, p.Readable → Answers c →
      execInstr s.host s.T s.v.bc (readInstr e) ⟨a', p.operands++st, f.regs t⟩ =
        call ⟨a', p.operands++st, f.regs t⟩ (p.operands++st) c →
      s.Ends ⟨a, p.operands++st, f.regs t⟩ st
        (fun w g y => p.Readable ∧ Setting.Top t a' (p.operands++st) w g y) (Eval.call s.host c f) := by
    intro c hr hc he
    exact ((ends_call hi he hc hf).mono fun _ _ _ h => ⟨hr, h⟩).below hp
  cases p with
  | id slot =>
    cases e with
    | id slot' =>
      obtain rfl : slot' = slot := hs
      exact lower trivial (answers_given (given_variable (hf _))) rfl
    | _ => exact hs.elim
  | prop obj name =>
    cases e with
    | prop o n => exact lower trivial (s.sound.getProp obj name) rfl
    | _ => exact hs.elim
  | index outer base index =>
    cases e with
    | index b i =>
      refine lower trivial (answers_still fun r hr => given_pushRef (hp base ?_) hr) rfl
      simp [Place.operands]
    | _ => exact hs.elim
  | range outer base lo hi => trivial

omit [FloatOps] in
theorem put_landed (ready : Bool) (slot a : ℕ) (st : List Var) (t : Var) (hw : unmarked w) (hf : f.Clean) :
    ∃ b, put s.v.bc ready slot ⟨a, w::st, f.regs t⟩ = .ok (.next b) ∧
      s.Landed t a st w (f.set slot w) b := by
  by_cases hpop : ready = true ∧ s.v.bc.vector[a]? = some (Opcode.toByte .pop)
  · refine ⟨_, ?_, hw, hf.set hw, .inr ⟨hpop.2, rfl⟩⟩
    simp only [put, if_pos hpop]
    rfl
  · refine ⟨_, ?_, hw, hf.set hw, .inl rfl⟩
    simp only [put, if_neg hpop]
    rfl

/-- The value goes into the left-hand side whose operands are on the stack. -/
theorem ends_store (hs : Shape e p) (hp : ∀ w ∈ p.operands, unmarked w)
    (h : CodeStore s.v k e a a') (hw : unmarked w) (hf : f.Clean) :
    s.Ends ⟨a, w::(p.operands++st), f.regs t⟩ st (s.Landed t a' st) (storePlace s.host p w f) := by
  induction p generalizing e k a w f with
  | id slot =>
    cases e with
    | id slot' =>
      obtain rfl : slot' = slot := hs
      change s.Ends _ _ _ (.ok (.value w (f.set slot' w)))
      obtain ⟨b, hb, hl⟩ := put_landed (s := s) (isReady slot') slot' a' st t hw hf
      have hmove := congrArg moveOf hb
      exact ⟨b, adv_one h hmove, hl⟩
    | _ => exact hs.elim
  | prop obj name =>
    cases e with
    | prop o n =>
      exact (ends_call h rfl (s.sound.putProp obj name w) hf).mono fun _ _ _ h => h.landed
    | _ => exact hs.elim
  | index outer base index ih =>
    cases e with
    | index b i =>
      obtain ⟨x, hi, hstore⟩ := h
      have hout : ∀ w ∈ outer.operands, unmarked w := fun u hu => hp u (by simp [Place.operands, hu])
      have hb : unmarked base := hp base (by simp [Place.operands])
      have hcall : s.Ends ⟨a, w::index::base::(outer.operands++st), f.regs t⟩ st
          (Setting.Top t x (outer.operands++st)) (Eval.call s.host (indexsetCall s.host base index w) f) :=
        (ends_call hi rfl (s.sound.indexset hb hw) hf).below hout
      refine hcall.bind fun u g y hy => ?_
      obtain ⟨hu, hg, rfl⟩ := hy
      exact ih hs.1 hout hstore hu hg
    | _ => exact hs.elim
  | range outer base low upto ih =>
    cases e with
    | range b l r =>
      obtain ⟨x, hi, hstore⟩ := h
      have hout : ∀ w ∈ outer.operands, unmarked w := fun u hu => hp u (by simp [Place.operands, hu])
      have hb : unmarked base := hp base (by simp [Place.operands])
      have hcall : s.Ends ⟨a, w::upto::low::base::(outer.operands++st), f.regs t⟩ st
          (Setting.Top t x (outer.operands++st)) (Eval.call s.host (still (rangeset base low upto w)) f) :=
        (ends_call hi rfl (answers_still fun r hr => given_rangeset hb hw hr) hf).below hout
      refine hcall.bind fun u g y hy => ?_
      obtain ⟨hu, hg, rfl⟩ := hy
      exact ih hs.1 hout hstore hu hg
    | _ => exact hs.elim

/-- The end of an assignment: what is assigned to a part stays in the temporary register. -/
theorem ends_assign (hs : Shape e p) (hp : ∀ w ∈ p.operands, unmarked w)
    (h : CodeStoreRhs s.v d e a a') (hw : unmarked w) (hf : f.Clean) :
    s.Ends ⟨a, w::(p.operands++st), f.regs t⟩ st (s.At a' st)
      ((do
        let u ← storePlace s.host p w
        return if Expr.isIndexed e then w else u : Eval σ Var) f) := by
  unfold CodeStoreRhs at h
  dsimp only at h
  split at h
  · next hindexed =>
    obtain ⟨b, c, x, htemp, hstore, hpop, hpush⟩ := h
    have hfirst : s.Adv ⟨a, w::(p.operands++st), f.regs t⟩ ⟨b, w::(p.operands++st), f.regs w⟩ :=
      adv_one htemp rfl
    refine ((ends_store hs hp hstore hw hf).bind fun u g y hy => ?_).before hfirst
    obtain ⟨hu, hg, hy⟩ := hy
    rw [if_pos hindexed]
    have hgone : s.Adv y ⟨x, st, g.regs w⟩ := by
      rcases hy with rfl | ⟨hbyte, rfl⟩
      · exact adv_one hpop rfl
      · have := (fetch_pop hbyte).symm.trans hpop.1
        simp only [Option.some.injEq, Prod.mk.injEq, true_and] at this
        rw [this]
        exact .refl
    exact (Setting.Ends.pure ⟨.none, hw, hg, .inl rfl⟩).before
      (hgone.trans (adv_one hpush rfl))
  · next hindexed =>
    refine (ends_store hs hp h hw hf).bind fun u g y hy => ?_
    rw [if_neg hindexed]
    exact Setting.Ends.pure hy.at

end Places

end Preservation

end LambdaMoo.Run
