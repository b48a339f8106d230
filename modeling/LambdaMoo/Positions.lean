import LambdaMoo.Listing

/-!
# Positions

An instruction ends behind the byte it starts at, and the code of an
expression behind its first instruction; both end at one position only.
-/

set_option autoImplicit false

namespace LambdaMoo

/-- What is read ends at `pos` or behind it. -/
def Onward {α : Type} (pos : ℕ) (o : Option (α×ℕ)) : Prop := ∀ r, o = some r → pos ≤ r.2

theorem Onward.pure {α : Type} (pos : ℕ) (x : α) : Onward pos (some (x, pos)) := by
  intro r h
  cases h
  exact Nat.le_refl _

theorem Onward.bind {α β : Type} {pos : ℕ} {o : Option (α×ℕ)} {f : α×ℕ → Option (β×ℕ)}
    (ho : Onward pos o) (hf : ∀ r, Onward r.2 (f r)) : Onward pos (o >>= f) := by
  intro r h
  obtain ⟨q, hq, hr⟩ := Option.bind_eq_some_iff.mp h
  exact (ho q hq).trans (hf q r hr)

theorem Onward.map {α β : Type} {pos n : ℕ} {o : Option α} {f : α → β} :
    Onward pos (o.map fun x => (f x, pos+n)) := by
  intro r h
  obtain ⟨x, hx, rfl⟩ := Option.map_eq_some_iff.mp h
  exact Nat.le_add_right _ _

namespace Bytecodes
variable (bc : Bytecodes) (pos : ℕ)

theorem readLabel_onward : Onward pos (bc.readLabel pos) := Onward.map (f := id)

theorem readLiteral_onward : Onward pos (bc.readLiteral pos) := Onward.map (f := id)

theorem readFork_onward : Onward pos (bc.readFork pos) := Onward.map (f := id)

theorem readId_onward : Onward pos (bc.readId pos) := Onward.map (f := id)

theorem readStack_onward : Onward pos (bc.readStack pos) := Onward.map (f := id)

theorem readByte_onward : Onward pos (bc.readByte pos) := Onward.map

theorem readTargets_onward (n : ℕ) : Onward pos (bc.readTargets n pos) := by
  induction n generalizing pos with
  | zero => exact Onward.pure pos []
  | succ n ih =>
    apply (bc.readId_onward pos).bind
    intro r
    apply (bc.readLabel_onward r.2).bind
    intro s
    apply (ih s.2).bind
    intro t
    exact Onward.pure _ _

theorem withLabel_onward (instr : ℕ → Instr) : Onward pos (bc.withLabel pos instr) :=
  (bc.readLabel_onward pos).bind fun _ => Onward.pure _ _

theorem withIdLabel_onward (instr : ℕ → ℕ → Instr) : Onward pos (bc.withIdLabel pos instr) :=
  (bc.readId_onward pos).bind fun r => (bc.readLabel_onward r.2).bind fun _ => Onward.pure _ _

theorem decodeExtended_onward (eop : ExtendedOpcode) :
    Onward pos (bc.decodeExtended eop pos) := by
  cases eop with
  | length => exact (bc.readStack_onward pos).bind fun _ => Onward.pure _ _
  | pushLabel | endCatch | endExcept | tryFinally => exact bc.withLabel_onward pos _
  | tryExcept => exact (bc.readByte_onward pos).bind fun _ => Onward.pure _ _
  | whileId => exact bc.withIdLabel_onward pos _
  | exit => exact (bc.readStack_onward pos).bind fun r => bc.withLabel_onward r.2 _
  | exitId =>
    apply (bc.readId_onward pos).bind
    intro r
    exact (bc.readStack_onward r.2).bind fun s => bc.withLabel_onward s.2 _
  | scatter =>
    apply (bc.readByte_onward pos).bind
    intro nargs
    apply (bc.readByte_onward _).bind
    intro nreq
    apply (bc.readByte_onward _).bind
    intro rest
    exact (bc.readTargets_onward _ _).bind fun r => bc.withLabel_onward r.2 _
  | _ => exact Onward.pure pos _

theorem decode_onward (op : Opcode) : Onward pos (bc.decode op pos) := by
  cases op with
  | «if» | «while» | eif | ifQues | and | or | jump => exact bc.withLabel_onward pos _
  | fork => exact (bc.readFork_onward pos).bind fun _ => Onward.pure _ _
  | forkWithId =>
    exact (bc.readFork_onward pos).bind fun r => (bc.readId_onward r.2).bind fun _ =>
      Onward.pure _ _
  | forList | forRange => exact bc.withIdLabel_onward pos _
  | biFuncCall => exact (bc.readByte_onward pos).bind fun _ => Onward.pure _ _
  | gPut | gPush => exact (bc.readId_onward pos).bind fun _ => Onward.pure _ _
  | imm => exact (bc.readLiteral_onward pos).bind fun _ => Onward.pure _ _
  | extended =>
    intro r h
    obtain ⟨b, -, h⟩ := Option.bind_eq_some_iff.mp h
    obtain ⟨eop, -, h⟩ := Option.bind_eq_some_iff.mp h
    exact (Nat.le_succ pos).trans (bc.decodeExtended_onward (pos+1) eop r h)
  | _ => exact Onward.pure pos _

theorem fetch_lt {pos pos' : ℕ} {i : Instr} (h : bc.fetch pos = some (i, pos')) : pos < pos' := by
  obtain ⟨b, -, h⟩ := Option.bind_eq_some_iff.mp h
  exact bc.decode_onward (pos+1) _ _ h

end Bytecodes

namespace CodeGen

theorem Vec.instr.lt {v : Vec} {d a a' : ℕ} {i : Instr} (h : v.instr d i a a') : a < a' :=
  v.bc.fetch_lt h.1

theorem Vec.instr.unique {v : Vec} {d d' a b b' : ℕ} {i i' : Instr} (h : v.instr d i a b)
    (h' : v.instr d' i' a b') : b = b' := by
  have := h.1.symm.trans h'.1
  simp only [Option.some.injEq, Prod.mk.injEq] at this
  exact this.2

section Code
variable {T : Tables} {v : Vec} {d : ℕ} {saved : Option ℕ}

theorem CodeVar.lt {x : Var} {a a' : ℕ} (h : CodeVar T v d x a a') : a < a' := by
  rcases h with ⟨n, -, -, hi⟩ | ⟨-, slot, -, hi⟩
  · exact hi.lt
  · exact hi.lt

theorem codeStore_lt {e : Expr} {k a a' : ℕ} (h : CodeStore v k e a a') : a < a' := by
  fun_induction CodeStore v k e a a' with
  | case1 k base lo hi a a' ih =>
    obtain ⟨b, h1, h2⟩ := h
    exact h1.lt.trans (ih b h2)
  | case2 k base index a a' ih =>
    obtain ⟨b, h1, h2⟩ := h
    exact h1.lt.trans (ih b h2)
  | case3 | case4 => exact h.lt
  | case5 => exact h.elim

theorem CodeStoreRhs.lt {e : Expr} {a a' : ℕ} (h : CodeStoreRhs v d e a a') : a < a' := by
  unfold CodeStoreRhs at h
  dsimp only at h
  split at h
  · obtain ⟨b, c, x, h1, h2, h3, h4⟩ := h
    have := codeStore_lt h2
    exact h1.lt.trans (this.trans (h3.lt.trans h4.lt))
  · exact codeStore_lt h

theorem CodeAbove.le {above : Bool} {i : Instr} {a a' : ℕ} (h : CodeAbove v above d i a a') :
    a ≤ a' := by
  cases above with
  | true => exact Nat.le_of_lt (Vec.instr.lt h)
  | false => exact Nat.le_of_eq h

mutual
theorem codeExpr_lt {d : ℕ} {saved : Option ℕ} (e : Expr) {a a' : ℕ}
    (h : CodeExpr T v d saved e a a') : a < a' := by
  match e, h with
  | .var _, h => exact CodeVar.lt h
  | .id _, h => exact Vec.instr.lt h
  | .and lhs rhs, ⟨b, c, h1, h2, h3⟩ | .or lhs rhs, ⟨b, c, h1, h2, h3⟩ =>
    exact (codeExpr_lt lhs h1).trans (h2.lt.trans (codeExpr_lt rhs h3))
  | .unary _ arg, ⟨b, h1, h2⟩ => exact (codeExpr_lt arg h1).trans h2.lt
  | .binary _ lhs rhs, ⟨b, c, h1, h2, h3⟩ | .prop lhs rhs, ⟨b, c, h1, h2, h3⟩
  | .index lhs rhs, ⟨b, c, h1, h2, h3⟩ =>
    exact (codeExpr_lt lhs h1).trans ((codeExpr_lt rhs h2).trans h3.lt)
  | .range base lo hi, ⟨b, c, x, h1, h2, h3, h4⟩ =>
    exact (codeExpr_lt base h1).trans ((codeExpr_lt lo h2).trans ((codeExpr_lt hi h3).trans h4.lt))
  | .length, ⟨_, _, h⟩ => exact h.lt
  | .list args, h => exact codeArgList_lt args h
  | .call _ args, ⟨b, h1, h2⟩ => exact (codeArgList_lt args h1).trans h2.lt
  | .verb obj name args, ⟨b, c, x, h1, h2, h3, h4⟩ =>
    exact (codeExpr_lt obj h1).trans ((codeExpr_lt name h2).trans
      ((codeArgList_lt args h3).trans h4.lt))
  | .cond condition consequent alternate, ⟨b, c, x, y, h1, h2, h3, h4, h5⟩ =>
    exact (codeExpr_lt condition h1).trans (h2.lt.trans ((codeExpr_lt consequent h3).trans
      (h4.lt.trans (codeExpr_lt alternate h5))))
  | .asgn (.scatter sc) rhs, ⟨b, c, targets, h1, h2, h3⟩ =>
    exact (codeExpr_lt rhs h1).trans (h2.lt.trans_le (codeDefaults_le sc h3))
  | .asgn (.id _) rhs, ⟨b, c, h1, h2, h3⟩ | .asgn (.prop _ _) rhs, ⟨b, c, h1, h2, h3⟩
  | .asgn (.index _ _) rhs, ⟨b, c, h1, h2, h3⟩ | .asgn (.range _ _ _) rhs, ⟨b, c, h1, h2, h3⟩
  | .asgn (.var _) rhs, ⟨b, c, h1, h2, h3⟩ | .asgn (.verb _ _ _) rhs, ⟨b, c, h1, h2, h3⟩
  | .asgn (.asgn _ _) rhs, ⟨b, c, h1, h2, h3⟩ | .asgn (.call _ _) rhs, ⟨b, c, h1, h2, h3⟩
  | .asgn (.binary _ _ _) rhs, ⟨b, c, h1, h2, h3⟩ | .asgn (.and _ _) rhs, ⟨b, c, h1, h2, h3⟩
  | .asgn (.or _ _) rhs, ⟨b, c, h1, h2, h3⟩ | .asgn (.unary _ _) rhs, ⟨b, c, h1, h2, h3⟩
  | .asgn (.list _) rhs, ⟨b, c, h1, h2, h3⟩ | .asgn (.cond _ _ _) rhs, ⟨b, c, h1, h2, h3⟩
  | .asgn (.catch _ _ _) rhs, ⟨b, c, h1, h2, h3⟩ | .asgn .length rhs, ⟨b, c, h1, h2, h3⟩ =>
    exact (codeLvalue_le _ h1).trans_lt ((codeExpr_lt rhs h2).trans h3.lt)
  | .catch body codes default, ⟨b, c, x, y, z, h1, h2, h3, h4, h5, h6⟩ =>
    exact (codeCodes_lt codes h1).trans (h2.lt.trans (h3.lt.trans ((codeExpr_lt body h4).trans
      (h5.lt.trans (codeDefault_lt default h6)))))
theorem codeArgList_lt {d : ℕ} {saved : Option ℕ} (args : ArgList) {a a' : ℕ}
    (h : CodeArgList T v d saved args a a') : a < a' := by
  match args, h with
  | .nil, h => exact Vec.instr.lt h
  | .cons _ expr next, ⟨b, c, h1, h2, h3⟩ =>
    exact (codeExpr_lt expr h1).trans (h2.lt.trans_le (codeArgs_le next h3))
theorem codeArgs_le {d : ℕ} {saved : Option ℕ} (args : ArgList) {a a' : ℕ}
    (h : CodeArgs T v d saved args a a') : a ≤ a' := by
  match args, h with
  | .nil, h => exact Nat.le_of_eq h
  | .cons _ expr next, ⟨b, c, h1, h2, h3⟩ =>
    exact (((codeExpr_lt expr h1).trans h2.lt).trans_le (codeArgs_le next h3)).le
theorem codeCodes_lt {d : ℕ} {saved : Option ℕ} (codes : ArgList) {a a' : ℕ}
    (h : CodeCodes T v d saved codes a a') : a < a' := by
  match codes, h with
  | .nil, h => exact Vec.instr.lt h
  | .cons _ expr next, ⟨b, c, h1, h2, h3⟩ =>
    exact (codeExpr_lt expr h1).trans (h2.lt.trans_le (codeArgs_le next h3))
theorem codeLvalue_le {d : ℕ} {saved : Option ℕ} (e : Expr) {above : Bool} {a a' : ℕ}
    (h : CodeLvalue T v d saved e above a a') : a ≤ a' := by
  match e, h with
  | .range base lo hi, ⟨b, c, h1, h2, h3⟩ =>
    exact (codeLvalue_le base h1).trans ((codeExpr_lt lo h2).trans (codeExpr_lt hi h3)).le
  | .index base index, ⟨b, c, h1, h2, h3⟩ =>
    exact (codeLvalue_le base h1).trans ((codeExpr_lt index h2).le.trans h3.le)
  | .id _, h => exact CodeAbove.le h
  | .prop obj name, ⟨b, c, h1, h2, h3⟩ =>
    exact ((codeExpr_lt obj h1).trans (codeExpr_lt name h2)).le.trans h3.le
theorem codeDefaults_le {d : ℕ} {saved : Option ℕ} (sc : Scatter) {targets : List (ℕ×ℕ)}
    {a a' : ℕ} (h : CodeDefaults T v d saved sc targets a a') : a ≤ a' := by
  match sc, h with
  | .nil, ⟨_, h⟩ => exact Nat.le_of_eq h
  | .cons .optional _ (.some expr) next, ⟨_, b, c, x, _, h1, h2, h3, h4⟩ =>
    exact ((codeExpr_lt expr h1).trans (h2.lt.trans h3.lt)).le.trans (codeDefaults_le next h4)
  | .cons .optional _ .none next, ⟨_, _, h⟩ => exact codeDefaults_le next h
  | .cons .required _ _ next, ⟨_, _, h⟩ | .cons .rest _ _ next, ⟨_, _, h⟩ =>
    exact codeDefaults_le next h
theorem codeDefault_lt {d : ℕ} {saved : Option ℕ} (e : OptExpr) {a a' : ℕ}
    (h : CodeDefault T v d saved e a a') : a < a' := by
  match e, h with
  | .some expr, ⟨b, h1, h2⟩ => exact h1.lt.trans (codeExpr_lt expr h2)
  | .none, ⟨b, h1, h2⟩ => exact h1.lt.trans h2.lt
end

theorem CodeVar.unique {x : Var} {a b b' : ℕ} (h : CodeVar T v d x a b)
    (h' : CodeVar T v d x a b') : b = b' := by
  rcases h with ⟨n, -, -, h⟩ | ⟨-, slot, -, h⟩
  · rcases h' with ⟨n, -, -, h'⟩ | ⟨-, slot, -, h'⟩
    · exact h.unique h'
    · exact h.unique h'
  · rcases h' with ⟨n, -, -, h'⟩ | ⟨-, slot, -, h'⟩
    · exact h.unique h'
    · exact h.unique h'

theorem codeStore_unique {e : Expr} {k a b b' : ℕ} (h : CodeStore v k e a b)
    (h' : CodeStore v k e a b') : b = b' := by
  fun_induction CodeStore v k e a b with
  | case1 k base lo hi a b ih | case2 k base index a b ih =>
    obtain ⟨c, h1, h2⟩ := h
    obtain ⟨c', h1', h2'⟩ := h'
    obtain rfl := h1.unique h1'
    exact ih c h2 h2'
  | case3 | case4 => exact h.unique h'
  | case5 => exact h.elim

theorem CodeStoreRhs.unique {e : Expr} {a b b' : ℕ} (h : CodeStoreRhs v d e a b)
    (h' : CodeStoreRhs v d e a b') : b = b' := by
  unfold CodeStoreRhs at h h'
  dsimp only at h h'
  split at h
  · obtain ⟨p, q, r, h1, h2, h3, h4⟩ := h
    rw [if_pos ‹_›] at h'
    obtain ⟨p', q', r', h1', h2', h3', h4'⟩ := h'
    obtain rfl := h1.unique h1'
    obtain rfl := codeStore_unique h2 h2'
    obtain rfl := h3.unique h3'
    exact h4.unique h4'
  · rw [if_neg ‹_›] at h'
    exact codeStore_unique h h'

theorem CodeAbove.unique {above : Bool} {i : Instr} {a b b' : ℕ}
    (h : CodeAbove v above d i a b) (h' : CodeAbove v above d i a b') : b = b' := by
  cases above with
  | true => exact Vec.instr.unique h h'
  | false => exact Eq.trans (Eq.symm h) h'

mutual
theorem codeExpr_unique {d : ℕ} {saved : Option ℕ} (e : Expr) {a a₁ a₂ : ℕ}
    (h : CodeExpr T v d saved e a a₁) (h' : CodeExpr T v d saved e a a₂) : a₁ = a₂ := by
  match e, h, h' with
  | .var _, h, h' => exact CodeVar.unique h h'
  | .id _, h, h' => exact Vec.instr.unique h h'
  | .and lhs rhs, ⟨b, c, h1, h2, h3⟩, ⟨b', c', h1', h2', h3'⟩
  | .or lhs rhs, ⟨b, c, h1, h2, h3⟩, ⟨b', c', h1', h2', h3'⟩ =>
    obtain rfl := codeExpr_unique lhs h1 h1'
    obtain rfl := h2.unique h2'
    exact codeExpr_unique rhs h3 h3'
  | .unary _ arg, ⟨b, h1, h2⟩, ⟨b', h1', h2'⟩ =>
    obtain rfl := codeExpr_unique arg h1 h1'
    exact h2.unique h2'
  | .binary _ lhs rhs, ⟨b, c, h1, h2, h3⟩, ⟨b', c', h1', h2', h3'⟩
  | .prop lhs rhs, ⟨b, c, h1, h2, h3⟩, ⟨b', c', h1', h2', h3'⟩
  | .index lhs rhs, ⟨b, c, h1, h2, h3⟩, ⟨b', c', h1', h2', h3'⟩ =>
    obtain rfl := codeExpr_unique lhs h1 h1'
    obtain rfl := codeExpr_unique rhs h2 h2'
    exact h3.unique h3'
  | .range base lo hi, ⟨b, c, x, h1, h2, h3, h4⟩, ⟨b', c', x', h1', h2', h3', h4'⟩ =>
    obtain rfl := codeExpr_unique base h1 h1'
    obtain rfl := codeExpr_unique lo h2 h2'
    obtain rfl := codeExpr_unique hi h3 h3'
    exact h4.unique h4'
  | .length, ⟨_, _, h⟩, ⟨_, _, h'⟩ => exact h.unique h'
  | .list args, h, h' => exact codeArgList_unique args h h'
  | .call _ args, ⟨b, h1, h2⟩, ⟨b', h1', h2'⟩ =>
    obtain rfl := codeArgList_unique args h1 h1'
    exact h2.unique h2'
  | .verb obj name args, ⟨b, c, x, h1, h2, h3, h4⟩, ⟨b', c', x', h1', h2', h3', h4'⟩ =>
    obtain rfl := codeExpr_unique obj h1 h1'
    obtain rfl := codeExpr_unique name h2 h2'
    obtain rfl := codeArgList_unique args h3 h3'
    exact h4.unique h4'
  | .cond condition consequent alternate, ⟨b, c, x, y, h1, h2, h3, h4, h5⟩,
      ⟨b', c', x', y', h1', h2', h3', h4', h5'⟩ =>
    obtain rfl := codeExpr_unique condition h1 h1'
    obtain rfl := h2.unique h2'
    obtain rfl := codeExpr_unique consequent h3 h3'
    obtain rfl := h4.unique h4'
    exact codeExpr_unique alternate h5 h5'
  | .asgn (.scatter sc) rhs, ⟨b, c, ts, h1, h2, h3⟩, ⟨b', c', ts', h1', h2', h3'⟩ =>
    obtain rfl := codeExpr_unique rhs h1 h1'
    obtain rfl := h2.unique h2'
    exact codeDefaults_unique sc h3 h3'
  | .asgn (.id _) rhs, ⟨b, c, h1, h2, h3⟩, ⟨b', c', h1', h2', h3'⟩
  | .asgn (.prop _ _) rhs, ⟨b, c, h1, h2, h3⟩, ⟨b', c', h1', h2', h3'⟩
  | .asgn (.index _ _) rhs, ⟨b, c, h1, h2, h3⟩, ⟨b', c', h1', h2', h3'⟩
  | .asgn (.range _ _ _) rhs, ⟨b, c, h1, h2, h3⟩, ⟨b', c', h1', h2', h3'⟩
  | .asgn (.var _) rhs, ⟨b, c, h1, h2, h3⟩, ⟨b', c', h1', h2', h3'⟩
  | .asgn (.verb _ _ _) rhs, ⟨b, c, h1, h2, h3⟩, ⟨b', c', h1', h2', h3'⟩
  | .asgn (.asgn _ _) rhs, ⟨b, c, h1, h2, h3⟩, ⟨b', c', h1', h2', h3'⟩
  | .asgn (.call _ _) rhs, ⟨b, c, h1, h2, h3⟩, ⟨b', c', h1', h2', h3'⟩
  | .asgn (.binary _ _ _) rhs, ⟨b, c, h1, h2, h3⟩, ⟨b', c', h1', h2', h3'⟩
  | .asgn (.and _ _) rhs, ⟨b, c, h1, h2, h3⟩, ⟨b', c', h1', h2', h3'⟩
  | .asgn (.or _ _) rhs, ⟨b, c, h1, h2, h3⟩, ⟨b', c', h1', h2', h3'⟩
  | .asgn (.unary _ _) rhs, ⟨b, c, h1, h2, h3⟩, ⟨b', c', h1', h2', h3'⟩
  | .asgn (.list _) rhs, ⟨b, c, h1, h2, h3⟩, ⟨b', c', h1', h2', h3'⟩
  | .asgn (.cond _ _ _) rhs, ⟨b, c, h1, h2, h3⟩, ⟨b', c', h1', h2', h3'⟩
  | .asgn (.catch _ _ _) rhs, ⟨b, c, h1, h2, h3⟩, ⟨b', c', h1', h2', h3'⟩
  | .asgn .length rhs, ⟨b, c, h1, h2, h3⟩, ⟨b', c', h1', h2', h3'⟩ =>
    obtain rfl := codeLvalue_unique _ h1 h1'
    obtain rfl := codeExpr_unique rhs h2 h2'
    exact h3.unique h3'
  | .catch body codes default, ⟨b, c, x, y, z, h1, h2, h3, h4, h5, h6⟩,
      ⟨b', c', x', y', z', h1', h2', h3', h4', h5', h6'⟩ =>
    obtain rfl := codeCodes_unique codes h1 h1'
    obtain rfl := h2.unique h2'
    obtain rfl := h3.unique h3'
    obtain rfl := codeExpr_unique body h4 h4'
    obtain rfl := h5.unique h5'
    exact codeDefault_unique default h6 h6'
theorem codeArgList_unique {d : ℕ} {saved : Option ℕ} (args : ArgList) {a a₁ a₂ : ℕ}
    (h : CodeArgList T v d saved args a a₁) (h' : CodeArgList T v d saved args a a₂) :
    a₁ = a₂ := by
  match args, h, h' with
  | .nil, h, h' => exact Vec.instr.unique h h'
  | .cons _ expr next, ⟨b, c, h1, h2, h3⟩, ⟨b', c', h1', h2', h3'⟩ =>
    obtain rfl := codeExpr_unique expr h1 h1'
    obtain rfl := h2.unique h2'
    exact codeArgs_unique next h3 h3'
theorem codeArgs_unique {d : ℕ} {saved : Option ℕ} (args : ArgList) {a a₁ a₂ : ℕ}
    (h : CodeArgs T v d saved args a a₁) (h' : CodeArgs T v d saved args a a₂) : a₁ = a₂ := by
  match args, h, h' with
  | .nil, h, h' => exact Eq.trans (Eq.symm h) h'
  | .cons _ expr next, ⟨b, c, h1, h2, h3⟩, ⟨b', c', h1', h2', h3'⟩ =>
    obtain rfl := codeExpr_unique expr h1 h1'
    obtain rfl := h2.unique h2'
    exact codeArgs_unique next h3 h3'
theorem codeCodes_unique {d : ℕ} {saved : Option ℕ} (codes : ArgList) {a a₁ a₂ : ℕ}
    (h : CodeCodes T v d saved codes a a₁) (h' : CodeCodes T v d saved codes a a₂) :
    a₁ = a₂ := by
  match codes, h, h' with
  | .nil, h, h' => exact Vec.instr.unique h h'
  | .cons _ expr next, ⟨b, c, h1, h2, h3⟩, ⟨b', c', h1', h2', h3'⟩ =>
    obtain rfl := codeExpr_unique expr h1 h1'
    obtain rfl := h2.unique h2'
    exact codeArgs_unique next h3 h3'
theorem codeLvalue_unique {d : ℕ} {saved : Option ℕ} (e : Expr) {above : Bool} {a a₁ a₂ : ℕ}
    (h : CodeLvalue T v d saved e above a a₁) (h' : CodeLvalue T v d saved e above a a₂) :
    a₁ = a₂ := by
  match e, h, h' with
  | .range base lo hi, ⟨b, c, h1, h2, h3⟩, ⟨b', c', h1', h2', h3'⟩ =>
    obtain rfl := codeLvalue_unique base h1 h1'
    obtain rfl := codeExpr_unique lo h2 h2'
    exact codeExpr_unique hi h3 h3'
  | .index base index, ⟨b, c, h1, h2, h3⟩, ⟨b', c', h1', h2', h3'⟩ =>
    obtain rfl := codeLvalue_unique base h1 h1'
    obtain rfl := codeExpr_unique index h2 h2'
    exact h3.unique h3'
  | .id _, h, h' => exact CodeAbove.unique h h'
  | .prop obj name, ⟨b, c, h1, h2, h3⟩, ⟨b', c', h1', h2', h3'⟩ =>
    obtain rfl := codeExpr_unique obj h1 h1'
    obtain rfl := codeExpr_unique name h2 h2'
    exact h3.unique h3'
theorem codeDefaults_unique {d : ℕ} {saved : Option ℕ} (sc : Scatter)
    {ts ts' : List (ℕ×ℕ)} {a a₁ a₂ : ℕ} (h : CodeDefaults T v d saved sc ts a a₁)
    (h' : CodeDefaults T v d saved sc ts' a a₂) : a₁ = a₂ := by
  match sc, h, h' with
  | .nil, ⟨_, h⟩, ⟨_, h'⟩ => exact h.symm.trans h'
  | .cons .optional _ (.some expr) next, ⟨_, b, c, x, _, h1, h2, h3, h4⟩,
      ⟨_, b', c', x', _, h1', h2', h3', h4'⟩ =>
    obtain rfl := codeExpr_unique expr h1 h1'
    obtain rfl := h2.unique h2'
    obtain rfl := h3.unique h3'
    exact codeDefaults_unique next h4 h4'
  | .cons .optional _ .none next, ⟨_, _, h⟩, ⟨_, _, h'⟩
  | .cons .required _ _ next, ⟨_, _, h⟩, ⟨_, _, h'⟩
  | .cons .rest _ _ next, ⟨_, _, h⟩, ⟨_, _, h'⟩ => exact codeDefaults_unique next h h'
theorem codeDefault_unique {d : ℕ} {saved : Option ℕ} (e : OptExpr) {a a₁ a₂ : ℕ}
    (h : CodeDefault T v d saved e a a₁) (h' : CodeDefault T v d saved e a a₂) : a₁ = a₂ := by
  match e, h, h' with
  | .some expr, ⟨b, h1, h2⟩, ⟨b', h1', h2'⟩ =>
    obtain rfl := h1.unique h1'
    exact codeExpr_unique expr h2 h2'
  | .none, ⟨b, h1, h2⟩, ⟨b', h1', h2'⟩ =>
    obtain rfl := h1.unique h1'
    exact h2.unique h2'
end

end Code

end CodeGen
end LambdaMoo
