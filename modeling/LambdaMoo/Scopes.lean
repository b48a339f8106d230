import LambdaMoo.Accept

/-!
# Trees whose names and exits are in scope

What the actions of the grammar check of a tree without counting anything: a
slot belongs to one of the `n` names of the program, `$` stands inside the
brackets of an index or range, an assignment has a place on its left side and
a loop exit has its loop in the same fork body. A tree that is in scope where
`$` may not stand is in scope where it may, and an accepted tree is in scope.
-/

set_option autoImplicit false

namespace LambdaMoo

mutual
def Expr.scoped (n : ℕ) (dollar : Bool) : Expr → Bool
  | .var _ => true
  | .id slot => slot < n
  | .prop lhs rhs | .and lhs rhs | .or lhs rhs | .binary _ lhs rhs =>
    lhs.scoped n dollar && rhs.scoped n dollar
  | .unary _ arg => arg.scoped n dollar
  | .verb obj name args => obj.scoped n dollar && name.scoped n dollar && args.scoped n dollar
  | .index base index => base.scoped n dollar && index.scoped n true
  | .range base lo hi => base.scoped n dollar && lo.scoped n true && hi.scoped n true
  | .asgn (.scatter sc) rhs => sc.scoped n dollar && rhs.scoped n dollar
  | .asgn lhs rhs => lhs.isLvalue && lhs.scoped n dollar && rhs.scoped n dollar
  | .call _ args | .list args => args.scoped n dollar
  | .cond condition consequent alternate =>
    condition.scoped n dollar && consequent.scoped n dollar && alternate.scoped n dollar
  | .catch body codes default =>
    body.scoped n dollar && codes.scoped n dollar && default.scoped n dollar
  | .length => dollar
  | .scatter _ => false
termination_by structural e => e
def ArgList.scoped (n : ℕ) (dollar : Bool) : ArgList → Bool
  | .nil => true
  | .cons _ expr next => expr.scoped n dollar && next.scoped n dollar
termination_by structural a => a
def Scatter.scoped (n : ℕ) (dollar : Bool) : Scatter → Bool
  | .nil => true
  | .cons _ id default next => id < n && default.scoped n dollar && next.scoped n dollar
termination_by structural sc => sc
def OptExpr.scoped (n : ℕ) (dollar : Bool) : OptExpr → Bool
  | .none => true
  | .some expr => expr.scoped n dollar
termination_by structural e => e
end

theorem Expr.scoped_asgn (lhs rhs : Expr) (hl : ∀ sc, lhs ≠ .scatter sc) (n : ℕ) (dollar : Bool) :
    (Expr.asgn lhs rhs).scoped n dollar =
      (lhs.isLvalue && lhs.scoped n dollar && rhs.scoped n dollar) := by
  cases lhs <;> first | rfl | exact absurd rfl (hl _)

section
variable {n : ℕ} {dollar : Bool}

mutual
theorem Expr.scoped_inside (e : Expr) (h : e.scoped n dollar = true) : e.scoped n true = true := by
  match e with
  | .var _ => rfl
  | .id _ => exact h
  | .prop l r | .and l r | .or l r | .binary _ l r =>
    simp only [Expr.scoped, Bool.and_eq_true] at h ⊢
    exact ⟨l.scoped_inside h.1, r.scoped_inside h.2⟩
  | .unary _ a =>
    simp only [Expr.scoped] at h ⊢
    exact a.scoped_inside h
  | .verb o nm a =>
    simp only [Expr.scoped, Bool.and_eq_true] at h ⊢
    exact ⟨⟨o.scoped_inside h.1.1, nm.scoped_inside h.1.2⟩, a.scoped_inside h.2⟩
  | .index b i =>
    simp only [Expr.scoped, Bool.and_eq_true] at h ⊢
    exact ⟨b.scoped_inside h.1, h.2⟩
  | .range b lo hi =>
    simp only [Expr.scoped, Bool.and_eq_true] at h ⊢
    exact ⟨⟨b.scoped_inside h.1.1, h.1.2⟩, h.2⟩
  | .asgn (.scatter sc) rhs =>
    simp only [Expr.scoped, Bool.and_eq_true] at h ⊢
    exact ⟨sc.scoped_inside h.1, rhs.scoped_inside h.2⟩
  | .asgn (.id _) rhs | .asgn (.prop _ _) rhs | .asgn (.index _ _) rhs | .asgn (.range _ _ _) rhs =>
    rw [Expr.scoped_asgn _ rhs (by simp), Bool.and_eq_true, Bool.and_eq_true] at h ⊢
    exact ⟨⟨h.1.1, Expr.scoped_inside _ h.1.2⟩, rhs.scoped_inside h.2⟩
  | .asgn (.var _) _ | .asgn (.verb _ _ _) _ | .asgn (.asgn _ _) _ | .asgn (.call _ _) _
  | .asgn (.binary _ _ _) _ | .asgn (.and _ _) _ | .asgn (.or _ _) _ | .asgn (.unary _ _) _
  | .asgn (.list _) _ | .asgn (.cond _ _ _) _ | .asgn (.catch _ _ _) _ | .asgn .length _ =>
    simp [Expr.scoped, Expr.isLvalue, Expr.isIndexBase] at h
  | .call _ a | .list a =>
    simp only [Expr.scoped] at h ⊢
    exact a.scoped_inside h
  | .cond c a b =>
    simp only [Expr.scoped, Bool.and_eq_true] at h ⊢
    exact ⟨⟨c.scoped_inside h.1.1, a.scoped_inside h.1.2⟩, b.scoped_inside h.2⟩
  | .catch b cs d =>
    simp only [Expr.scoped, Bool.and_eq_true] at h ⊢
    exact ⟨⟨b.scoped_inside h.1.1, cs.scoped_inside h.1.2⟩, d.scoped_inside h.2⟩
  | .length => rfl
  | .scatter _ => simp [Expr.scoped] at h
termination_by structural e
theorem ArgList.scoped_inside (a : ArgList) (h : a.scoped n dollar = true) :
    a.scoped n true = true := by
  match a with
  | .nil => rfl
  | .cons _ e next =>
    simp only [ArgList.scoped, Bool.and_eq_true] at h ⊢
    exact ⟨e.scoped_inside h.1, next.scoped_inside h.2⟩
termination_by structural a
theorem Scatter.scoped_inside (sc : Scatter) (h : sc.scoped n dollar = true) :
    sc.scoped n true = true := by
  match sc with
  | .nil => rfl
  | .cons _ _ d next =>
    simp only [Scatter.scoped, Bool.and_eq_true] at h ⊢
    exact ⟨⟨h.1.1, d.scoped_inside h.1.2⟩, next.scoped_inside h.2⟩
termination_by structural sc
theorem OptExpr.scoped_inside (d : OptExpr) (h : d.scoped n dollar = true) :
    d.scoped n true = true := by
  match d with
  | .none => rfl
  | .some e =>
    simp only [OptExpr.scoped] at h ⊢
    exact e.scoped_inside h
termination_by structural d
end
end

mutual
theorem Expr.accepts_scoped (e : Expr) {dollar : Bool} (h : e.accepts dollar = true) :
    e.scoped (2^31) dollar = true := by
  match e with
  | .var _ => rfl
  | .id _ => exact h
  | .prop l r | .and l r | .or l r | .binary _ l r =>
    simp only [Expr.accepts, Expr.scoped, Bool.and_eq_true] at h ⊢
    exact ⟨l.accepts_scoped h.1, r.accepts_scoped h.2⟩
  | .unary _ a =>
    simp only [Expr.accepts, Expr.scoped] at h ⊢
    exact a.accepts_scoped h
  | .verb o nm a =>
    simp only [Expr.accepts, Expr.scoped, Bool.and_eq_true] at h ⊢
    exact ⟨⟨o.accepts_scoped h.1.1, nm.accepts_scoped h.1.2⟩, a.accepts_scoped h.2⟩
  | .index b i =>
    simp only [Expr.accepts, Expr.scoped, Bool.and_eq_true] at h ⊢
    exact ⟨b.accepts_scoped h.1, i.accepts_scoped h.2⟩
  | .range b lo hi =>
    simp only [Expr.accepts, Expr.scoped, Bool.and_eq_true] at h ⊢
    exact ⟨⟨b.accepts_scoped h.1.1, lo.accepts_scoped h.1.2⟩, hi.accepts_scoped h.2⟩
  | .asgn (.scatter sc) rhs =>
    simp only [Expr.accepts, Expr.scoped, Bool.and_eq_true] at h ⊢
    exact ⟨sc.accepts_scoped h.1.2, rhs.accepts_scoped h.2⟩
  | .asgn (.id _) rhs | .asgn (.prop _ _) rhs | .asgn (.index _ _) rhs | .asgn (.range _ _ _) rhs =>
    rw [Expr.accepts_asgn _ rhs (by simp), Bool.and_eq_true, Bool.and_eq_true] at h
    rw [Expr.scoped_asgn _ rhs (by simp), Bool.and_eq_true, Bool.and_eq_true]
    exact ⟨⟨h.1.1, Expr.accepts_scoped _ h.1.2⟩, rhs.accepts_scoped h.2⟩
  | .asgn (.var _) _ | .asgn (.verb _ _ _) _ | .asgn (.asgn _ _) _ | .asgn (.call _ _) _
  | .asgn (.binary _ _ _) _ | .asgn (.and _ _) _ | .asgn (.or _ _) _ | .asgn (.unary _ _) _
  | .asgn (.list _) _ | .asgn (.cond _ _ _) _ | .asgn (.catch _ _ _) _ | .asgn .length _ =>
    simp [Expr.accepts, Expr.isLvalue, Expr.isIndexBase] at h
  | .call _ a =>
    simp only [Expr.accepts, Expr.scoped, Bool.and_eq_true] at h ⊢
    exact a.accepts_scoped h.2
  | .list a =>
    simp only [Expr.accepts, Expr.scoped] at h ⊢
    exact a.accepts_scoped h
  | .cond c a b =>
    simp only [Expr.accepts, Expr.scoped, Bool.and_eq_true] at h ⊢
    exact ⟨⟨c.accepts_scoped h.1.1, a.accepts_scoped h.1.2⟩, b.accepts_scoped h.2⟩
  | .catch b cs d =>
    simp only [Expr.accepts, Expr.scoped, Bool.and_eq_true] at h ⊢
    exact ⟨⟨b.accepts_scoped h.1.1, cs.accepts_scoped h.1.2⟩, d.accepts_scoped h.2⟩
  | .length => exact h
  | .scatter _ => simp [Expr.accepts] at h
termination_by structural e
theorem ArgList.accepts_scoped (a : ArgList) {dollar : Bool} (h : a.accepts dollar = true) :
    a.scoped (2^31) dollar = true := by
  match a with
  | .nil => rfl
  | .cons _ e next =>
    simp only [ArgList.accepts, ArgList.scoped, Bool.and_eq_true] at h ⊢
    exact ⟨e.accepts_scoped h.1, next.accepts_scoped h.2⟩
termination_by structural a
theorem Scatter.accepts_scoped (sc : Scatter) {dollar : Bool} (h : sc.accepts dollar = true) :
    sc.scoped (2^31) dollar = true := by
  match sc with
  | .nil => rfl
  | .cons _ _ d next =>
    simp only [Scatter.accepts, Scatter.scoped, Bool.and_eq_true] at h ⊢
    exact ⟨⟨h.1.1.1, d.accepts_scoped h.1.2⟩, next.accepts_scoped h.2⟩
termination_by structural sc
theorem OptExpr.accepts_scoped (d : OptExpr) {dollar : Bool} (h : d.accepts dollar = true) :
    d.scoped (2^31) dollar = true := by
  match d with
  | .none => rfl
  | .some e =>
    simp only [OptExpr.accepts, OptExpr.scoped] at h ⊢
    exact e.accepts_scoped h
termination_by structural d
end

def nameScoped (n : ℕ) : Option ℕ → Bool
  | none => true
  | some id => id < n

mutual
def Stmt.scoped (n : ℕ) (loops : List (Option ℕ)) : Stmt → Bool
  | .cond arms otherwise => arms.scoped n loops && otherwise.scoped n loops
  | .list id expr body => id < n && expr.scoped n false && body.scoped n (some id::loops)
  | .range id lo hi body =>
    id < n && lo.scoped n false && hi.scoped n false && body.scoped n (some id::loops)
  | .while id condition body =>
    nameScoped n id && condition.scoped n false && body.scoped n (id::loops)
  | .fork id time body => nameScoped n id && time.scoped n false && body.scoped n []
  | .expr expr => expr.scoped n false
  | .return (some expr) => expr.scoped n false
  | .return none => true
  | .tryExcept body excepts => body.scoped n loops && excepts.scoped n loops
  | .tryFinally body handler => body.scoped n loops && handler.scoped n loops
  | .break exit | .continue exit => exitOk loops exit
termination_by structural st => st
def Stmts.scoped (n : ℕ) (loops : List (Option ℕ)) : Stmts → Bool
  | .nil => true
  | .cons stmt next => stmt.scoped n loops && next.scoped n loops
termination_by structural ss => ss
def CondArms.scoped (n : ℕ) (loops : List (Option ℕ)) : CondArms → Bool
  | .nil => true
  | .cons condition stmt next =>
    condition.scoped n false && stmt.scoped n loops && next.scoped n loops
termination_by structural arms => arms
def ExceptArms.scoped (n : ℕ) (loops : List (Option ℕ)) : ExceptArms → Bool
  | .nil => true
  | .cons id codes stmt next =>
    nameScoped n id && codes.scoped n false && stmt.scoped n loops && next.scoped n loops
termination_by structural arms => arms
end

theorem nameScoped_of_ok {id : Option ℕ} (h : nameOk id = true) : nameScoped (2^31) id = true := by
  cases id with
  | none => rfl
  | some id => exact h

mutual
theorem Stmt.accepts_scoped (st : Stmt) {loops : List (Option ℕ)} (h : st.accepts loops = true) :
    st.scoped (2^31) loops = true := by
  match st with
  | .cond arms otherwise =>
    simp only [Stmt.accepts, Stmt.scoped, Bool.and_eq_true] at h ⊢
    exact ⟨arms.accepts_scoped h.1.2, otherwise.accepts_scoped h.2⟩
  | .list id e body =>
    simp only [Stmt.accepts, Stmt.scoped, Bool.and_eq_true] at h ⊢
    exact ⟨⟨h.1.1, e.accepts_scoped h.1.2⟩, body.accepts_scoped h.2⟩
  | .range id lo hi body =>
    simp only [Stmt.accepts, Stmt.scoped, Bool.and_eq_true] at h ⊢
    exact ⟨⟨⟨h.1.1.1, lo.accepts_scoped h.1.1.2⟩, hi.accepts_scoped h.1.2⟩,
      body.accepts_scoped h.2⟩
  | .while id e body =>
    simp only [Stmt.accepts, Stmt.scoped, Bool.and_eq_true] at h ⊢
    exact ⟨⟨nameScoped_of_ok h.1.1, e.accepts_scoped h.1.2⟩, body.accepts_scoped h.2⟩
  | .fork id e body =>
    simp only [Stmt.accepts, Stmt.scoped, Bool.and_eq_true] at h ⊢
    exact ⟨⟨nameScoped_of_ok h.1.1, e.accepts_scoped h.1.2⟩, body.accepts_scoped h.2⟩
  | .expr e | .return (some e) =>
    simp only [Stmt.accepts, Stmt.scoped] at h ⊢
    exact e.accepts_scoped h
  | .return none => rfl
  | .tryExcept body arms =>
    simp only [Stmt.accepts, Stmt.scoped, Bool.and_eq_true] at h ⊢
    exact ⟨body.accepts_scoped h.1.2, arms.accepts_scoped h.2⟩
  | .tryFinally body handler =>
    simp only [Stmt.accepts, Stmt.scoped, Bool.and_eq_true] at h ⊢
    exact ⟨body.accepts_scoped h.1, handler.accepts_scoped h.2⟩
  | .break _ | .continue _ => exact h
termination_by structural st
theorem Stmts.accepts_scoped (ss : Stmts) {loops : List (Option ℕ)} (h : ss.accepts loops = true) :
    ss.scoped (2^31) loops = true := by
  match ss with
  | .nil => rfl
  | .cons st next =>
    simp only [Stmts.accepts, Stmts.scoped, Bool.and_eq_true] at h ⊢
    exact ⟨st.accepts_scoped h.1, next.accepts_scoped h.2⟩
termination_by structural ss
theorem CondArms.accepts_scoped (arms : CondArms) {loops : List (Option ℕ)}
    (h : arms.accepts loops = true) : arms.scoped (2^31) loops = true := by
  match arms with
  | .nil => rfl
  | .cons e body next =>
    simp only [CondArms.accepts, CondArms.scoped, Bool.and_eq_true] at h ⊢
    exact ⟨⟨e.accepts_scoped h.1.1, body.accepts_scoped h.1.2⟩, next.accepts_scoped h.2⟩
termination_by structural arms
theorem ExceptArms.accepts_scoped (arms : ExceptArms) {loops : List (Option ℕ)}
    (h : arms.accepts loops = true) : arms.scoped (2^31) loops = true := by
  match arms with
  | .nil => rfl
  | .cons id cs body next =>
    simp only [ExceptArms.accepts, ExceptArms.scoped, Bool.and_eq_true] at h ⊢
    exact ⟨⟨⟨nameScoped_of_ok h.1.1.1.1, cs.accepts_scoped h.1.1.1.2⟩,
      body.accepts_scoped h.1.2⟩, next.accepts_scoped h.2⟩
termination_by structural arms
end

end LambdaMoo
