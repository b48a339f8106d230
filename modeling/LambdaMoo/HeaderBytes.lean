import LambdaMoo.Relocation

/-!
# Header bytes

Three kinds of byte are stored without a check: the three of a scattering
assignment and the number of arms of a `try`. Which trees keep them below 256.
-/

set_option autoImplicit false

namespace LambdaMoo

mutual
/-- No scattering assignment has 255 targets none of which is a rest target. -/
def Expr.headersFit : Expr → Bool
  | .var _ | .id _ | .length | .scatter _ => true
  | .prop lhs rhs | .and lhs rhs | .or lhs rhs | .binary _ lhs rhs | .index lhs rhs =>
    lhs.headersFit && rhs.headersFit
  | .unary _ arg => arg.headersFit
  | .verb obj name args => obj.headersFit && name.headersFit && args.headersFit
  | .range base lo hi => base.headersFit && lo.headersFit && hi.headersFit
  | .asgn (.scatter sc) rhs =>
    (sc.length < 255 || 0 < sc.rests) && sc.headersFit && rhs.headersFit
  | .asgn lhs rhs => lhs.headersFit && rhs.headersFit
  | .call _ args | .list args => args.headersFit
  | .cond condition consequent alternate =>
    condition.headersFit && consequent.headersFit && alternate.headersFit
  | .catch body codes default => body.headersFit && codes.headersFit && default.headersFit
termination_by structural e => e
def ArgList.headersFit : ArgList → Bool
  | .nil => true
  | .cons _ expr next => expr.headersFit && next.headersFit
termination_by structural a => a
def Scatter.headersFit : Scatter → Bool
  | .nil => true
  | .cons _ _ default next => default.headersFit && next.headersFit
termination_by structural sc => sc
def OptExpr.headersFit : OptExpr → Bool
  | .none => true
  | .some expr => expr.headersFit
termination_by structural e => e
end

mutual
/-- Nor does a `try` have 256 arms; a fork body is a vector of its own. -/
def Stmt.headersFit : Stmt → Bool
  | .cond arms otherwise => arms.headersFit && otherwise.headersFit
  | .list _ expr body | .while _ expr body => expr.headersFit && body.headersFit
  | .range _ lo hi body => lo.headersFit && hi.headersFit && body.headersFit
  | .fork _ time _ => time.headersFit
  | .expr expr | .return (some expr) => expr.headersFit
  | .return none | .break _ | .continue _ => true
  | .tryExcept body excepts => excepts.length < 256 && body.headersFit && excepts.headersFit
  | .tryFinally body handler => body.headersFit && handler.headersFit
termination_by structural st => st
def Stmts.headersFit : Stmts → Bool
  | .nil => true
  | .cons stmt next => stmt.headersFit && next.headersFit
termination_by structural ss => ss
def CondArms.headersFit : CondArms → Bool
  | .nil => true
  | .cons condition stmt next => condition.headersFit && stmt.headersFit && next.headersFit
termination_by structural arms => arms
def ExceptArms.headersFit : ExceptArms → Bool
  | .nil => true
  | .cons _ codes stmt next => codes.headersFit && stmt.headersFit && next.headersFit
termination_by structural arms => arms
end

namespace CodeGen

/-- All bytes among the items are bytes. -/
def BytesFit (items : List Item) : Prop := ∀ n, Item.byte n ∈ items → n < 256

@[simp] theorem bytesFit_nil : BytesFit [] := by simp [BytesFit]

@[simp] theorem bytesFit_append (a b : List Item) :
    BytesFit (a++b) ↔ BytesFit a ∧ BytesFit b := by
  simp only [BytesFit, List.mem_append]
  exact ⟨fun h => ⟨fun n hn => h n (.inl hn), fun n hn => h n (.inr hn)⟩,
    fun h n hn => hn.elim (h.1 n) (h.2 n)⟩

theorem bytesFit_cons (i : Item) (b : List Item) :
    BytesFit (i::b) ↔ (∀ n, i = .byte n → n < 256) ∧ BytesFit b := by
  simp only [BytesFit, List.mem_cons]
  exact ⟨fun h => ⟨fun n hn => h n (.inl hn.symm), fun n hn => h n (.inr hn)⟩,
    fun h n hn => hn.elim (fun hn => h.1 n hn.symm) (h.2 n)⟩

@[simp] theorem bytesFit_byte (n : ℕ) (b : List Item) :
    BytesFit (.byte n::b) ↔ n < 256 ∧ BytesFit b := by simp [bytesFit_cons]

@[simp] theorem bytesFit_op (o : Opcode) (b : List Item) : BytesFit (.op o::b) ↔ BytesFit b := by
  simp [Item.op, Opcode.toNat_lt]

@[simp] theorem bytesFit_literal (x : Var) (b : List Item) :
    BytesFit (.literal x::b) ↔ BytesFit b := by simp [bytesFit_cons]
@[simp] theorem bytesFit_varRef (slot : ℕ) (b : List Item) :
    BytesFit (.varRef slot::b) ↔ BytesFit b := by simp [bytesFit_cons]
@[simp] theorem bytesFit_label (b : List Item) : BytesFit (.label::b) ↔ BytesFit b := by
  simp [bytesFit_cons]
@[simp] theorem bytesFit_stack (k : ℕ) (b : List Item) :
    BytesFit (.stack k::b) ↔ BytesFit b := by simp [bytesFit_cons]
@[simp] theorem bytesFit_fork (b : List Item) : BytesFit (.fork::b) ↔ BytesFit b := by
  simp [bytesFit_cons]
@[simp] theorem bytesFit_forked (items : List Item) : BytesFit (items.map .forked) := by
  simp [BytesFit]
@[simp] theorem bytesFit_extended (eop : ExtendedOpcode) : BytesFit (extendedItems eop) := by
  simp [extendedItems, ExtendedOpcode.toNat_lt]

@[simp] theorem bytesFit_either (o : Opcode ⊕ ExtendedOpcode) : BytesFit (eitherItems o) := by
  cases o <;> simp [eitherItems]

@[simp] theorem bytesFit_varOp (isPut : Bool) (slot : ℕ) : BytesFit (varOpItems isPut slot) := by
  unfold varOpItems
  split <;> simp

@[simp] theorem bytesFit_var (v : Var) : BytesFit (varItems v) := by
  unfold varItems
  split
  · split <;> simp
  · simp

@[simp] theorem bytesFit_target (sc : Scatter) : BytesFit (targetItems sc) := by
  match sc with
  | .nil => simp [targetItems]
  | .cons kind id default next => simp [targetItems, bytesFit_target next]

@[simp] theorem bytesFit_store (e : Expr) : BytesFit (storeItems e) := by
  cases e with
  | range base lo hi => simp [storeItems, bytesFit_store base]
  | index base index => simp [storeItems, bytesFit_store base]
  | _ => simp [storeItems]

theorem bytesFit_ite (b : Bool) {a : List Item} (h : BytesFit a) :
    BytesFit (if b then a else []) := by
  cases b <;> simp [h]

theorem restFrom_le (n : ℕ) (sc : Scatter) {r : ℕ} (h : Scatter.restFrom n sc = some r) :
    r ≤ n+sc.length := by
  match sc with
  | .nil => simp [Scatter.restFrom] at h
  | .cons kind id default next =>
    rw [Scatter.restFrom, Option.or_eq_some_iff] at h
    rw [Scatter.length]
    rcases h with h | ⟨-, h⟩
    · have := restFrom_le (n+1) next h
      omega
    · split at h
      · rw [Option.some.injEq] at h
        omega
      · cases h

theorem restFrom_none (n : ℕ) (sc : Scatter) :
    Scatter.restFrom n sc = none ↔ sc.rests = 0 := by
  match sc with
  | .nil => simp [Scatter.restFrom, Scatter.rests]
  | .cons kind id default next =>
    rw [Scatter.restFrom, Option.or_eq_none_iff, restFrom_none (n+1) next, Scatter.rests]
    split <;> simp

/-- The `rest` byte of a scattering assignment. -/
theorem rest_lt_iff {sc : Scatter} (h : sc.length ≤ 255) :
    Scatter.rest sc < 256 ↔ sc.length < 255 ∨ 0 < sc.rests := by
  have hnone := restFrom_none 0 sc
  cases hr : Scatter.restFrom 0 sc with
  | none =>
    simp only [Scatter.rest, hr, Option.getD_none, true_iff] at hnone ⊢
    omega
  | some r =>
    have := restFrom_le 0 sc hr
    simp only [Scatter.rest, hr, Option.getD_some, reduceCtorEq, false_iff] at hnone ⊢
    omega

theorem nreq_le (sc : Scatter) : Scatter.nreq sc ≤ sc.length := by
  match sc with
  | .nil => exact le_rfl
  | .cons kind id default next =>
    have := nreq_le next
    simp only [Scatter.nreq, Scatter.length]
    split <;> omega

mutual
theorem itemsExpr_bytes (d : ℕ) (saved : Option ℕ) (e : Expr) {dollar : Bool}
    (he : e.accepts dollar = true) :
    BytesFit (itemsExpr d saved e) ↔ e.headersFit = true := by
  match e with
  | .var v => simp [itemsExpr, Expr.headersFit]
  | .id slot => simp [itemsExpr, Expr.headersFit]
  | .and lhs rhs | .or lhs rhs =>
    simp only [Expr.accepts, Bool.and_eq_true] at he
    simp [itemsExpr, Expr.headersFit, itemsExpr_bytes _ _ lhs he.1, itemsExpr_bytes _ _ rhs he.2]
  | .unary op arg =>
    simp only [Expr.accepts] at he
    simp [itemsExpr, Expr.headersFit, itemsExpr_bytes _ _ arg he]
  | .binary _ lhs rhs | .prop lhs rhs | .index lhs rhs =>
    simp only [Expr.accepts, Bool.and_eq_true] at he
    simp [itemsExpr, Expr.headersFit, itemsExpr_bytes _ _ lhs he.1, itemsExpr_bytes _ _ rhs he.2]
  | .range base lo hi =>
    simp only [Expr.accepts, Bool.and_eq_true] at he
    simp [and_assoc, itemsExpr, Expr.headersFit, itemsExpr_bytes _ _ base he.1.1,
      itemsExpr_bytes _ _ lo he.1.2, itemsExpr_bytes _ _ hi he.2]
  | .length => simp [itemsExpr, Expr.headersFit]
  | .list args =>
    simp only [Expr.accepts] at he
    simp [itemsExpr, Expr.headersFit, itemsArgList_bytes _ _ args he]
  | .call func args =>
    simp only [Expr.accepts, Bool.and_eq_true, decide_eq_true_eq] at he
    simp [itemsExpr, Expr.headersFit, itemsArgList_bytes _ _ args he.2, he.1]
  | .verb obj name args =>
    simp only [Expr.accepts, Bool.and_eq_true] at he
    simp [and_assoc, itemsExpr, Expr.headersFit, itemsExpr_bytes _ _ obj he.1.1,
      itemsExpr_bytes _ _ name he.1.2, itemsArgList_bytes _ _ args he.2]
  | .cond condition consequent alternate =>
    simp only [Expr.accepts, Bool.and_eq_true] at he
    simp [and_assoc, itemsExpr, Expr.headersFit, itemsExpr_bytes _ _ condition he.1.1,
      itemsExpr_bytes _ _ consequent he.1.2, itemsExpr_bytes _ _ alternate he.2]
  | .asgn (.scatter sc) rhs =>
    simp only [Expr.accepts, Bool.and_eq_true] at he
    have hlen : sc.length ≤ 255 := by
      have := he.1.1
      simp only [Scatter.vet, Bool.and_eq_true, decide_eq_true_eq] at this
      exact this.1.2
    have hreq := nreq_le sc
    have h1 : sc.length < 256 := by omega
    have h2 : Scatter.nreq sc < 256 := by omega
    simp only [itemsExpr, bytesFit_append, itemsExpr_bytes _ _ rhs he.2, bytesFit_extended,
      bytesFit_byte, h1, h2, rest_lt_iff hlen, bytesFit_target, bytesFit_label, bytesFit_nil,
      itemsDefaults_bytes _ _ sc he.1.2, Expr.headersFit, Bool.and_eq_true, Bool.or_eq_true,
      decide_eq_true_eq, and_true, true_and]
    tauto
  | .asgn (.id _) rhs | .asgn (.prop _ _) rhs | .asgn (.index _ _) rhs | .asgn (.range _ _ _) rhs =>
    rw [Expr.accepts_asgn _ rhs (by simp), Bool.and_eq_true, Bool.and_eq_true] at he
    rw [itemsExpr_asgn _ rhs (by simp)]
    simp [Expr.headersFit, itemsLvalue_bytes _ _ _ false he.1.1 he.1.2, itemsExpr_bytes _ _ rhs he.2,
      bytesFit_ite]
  | .asgn (.var _) _ | .asgn (.verb _ _ _) _ | .asgn (.asgn _ _) _ | .asgn (.call _ _) _
  | .asgn (.binary _ _ _) _ | .asgn (.and _ _) _ | .asgn (.or _ _) _ | .asgn (.unary _ _) _
  | .asgn (.list _) _ | .asgn (.cond _ _ _) _ | .asgn (.catch _ _ _) _ | .asgn .length _ =>
    simp [Expr.accepts, Expr.isLvalue, Expr.isIndexBase] at he
  | .catch body codes default =>
    simp only [Expr.accepts, Bool.and_eq_true] at he
    have hc : BytesFit (codesOrItems codes (itemsArgList d saved codes)) ↔
        codes.headersFit = true := by
      match codes with
      | .nil => simp [codesOrItems, ArgList.headersFit]
      | .cons kind expr next => exact itemsArgList_bytes d saved (.cons kind expr next) he.1.2
    simp only [itemsExpr, bytesFit_append, hc, bytesFit_extended, bytesFit_label, bytesFit_nil,
      itemsExpr_bytes _ _ body he.1.1, itemsDefault_bytes _ _ default he.2, Expr.headersFit,
      Bool.and_eq_true, and_true]
    tauto
  | .scatter _ => simp [Expr.accepts] at he
theorem itemsArgList_bytes (d : ℕ) (saved : Option ℕ) (args : ArgList) {dollar : Bool}
    (he : args.accepts dollar = true) :
    BytesFit (itemsArgList d saved args) ↔ args.headersFit = true := by
  match args with
  | .nil => simp [itemsArgList, ArgList.headersFit]
  | .cons kind expr next =>
    simp only [ArgList.accepts, Bool.and_eq_true] at he
    simp [itemsArgList, ArgList.headersFit, itemsExpr_bytes _ _ expr he.1,
      itemsArgs_bytes _ _ next he.2]
theorem itemsArgs_bytes (d : ℕ) (saved : Option ℕ) (args : ArgList) {dollar : Bool}
    (he : args.accepts dollar = true) :
    BytesFit (itemsArgs d saved args) ↔ args.headersFit = true := by
  match args with
  | .nil => simp [itemsArgs, ArgList.headersFit]
  | .cons kind expr next =>
    simp only [ArgList.accepts, Bool.and_eq_true] at he
    simp [itemsArgs, ArgList.headersFit, itemsExpr_bytes _ _ expr he.1,
      itemsArgs_bytes _ _ next he.2]
theorem itemsLvalue_bytes (d : ℕ) (saved : Option ℕ) (e : Expr) (above : Bool) {dollar : Bool}
    (hl : e.isLvalue = true) (he : e.accepts dollar = true) :
    BytesFit (itemsLvalue d saved e above) ↔ e.headersFit = true := by
  match e with
  | .range base lo hi =>
    simp only [Expr.accepts, Bool.and_eq_true] at he
    simp [itemsLvalue, Expr.headersFit, and_assoc, itemsExpr_bytes _ _ lo he.1.2,
      itemsLvalue_bytes _ _ base true (isLvalue_of_indexBase hl) he.1.1,
      itemsExpr_bytes _ _ hi he.2]
  | .index base index =>
    simp only [Expr.accepts, Bool.and_eq_true] at he
    simp [itemsLvalue, Expr.headersFit, itemsExpr_bytes _ _ index he.2, bytesFit_ite,
      itemsLvalue_bytes _ _ base true (isLvalue_of_indexBase hl) he.1]
  | .id slot => simp [itemsLvalue, Expr.headersFit, bytesFit_ite]
  | .prop obj name =>
    simp only [Expr.accepts, Bool.and_eq_true] at he
    simp [itemsLvalue, Expr.headersFit, itemsExpr_bytes _ _ obj he.1,
      itemsExpr_bytes _ _ name he.2, bytesFit_ite]
  | .var _ | .verb _ _ _ | .asgn _ _ | .call _ _ | .binary _ _ _ | .and _ _ | .or _ _
  | .unary _ _ | .list _ | .cond _ _ _ | .catch _ _ _ | .length | .scatter _ =>
    simp [Expr.isLvalue, Expr.isIndexBase] at hl
theorem itemsDefaults_bytes (d : ℕ) (saved : Option ℕ) (sc : Scatter) {dollar : Bool}
    (he : sc.accepts dollar = true) :
    BytesFit (itemsDefaults d saved sc) ↔ sc.headersFit = true := by
  match sc with
  | .nil => simp [itemsDefaults, Scatter.headersFit]
  | .cons .optional id (.some expr) next =>
    simp only [Scatter.accepts, Bool.and_eq_true, OptExpr.accepts] at he
    simp [itemsDefaults, Scatter.headersFit, OptExpr.headersFit, itemsExpr_bytes _ _ expr he.1.2,
      itemsDefaults_bytes _ _ next he.2]
  | .cons .optional id .none next | .cons .required id .none next | .cons .rest id .none next =>
    simp only [Scatter.accepts, Bool.and_eq_true] at he
    simp [itemsDefaults, Scatter.headersFit, OptExpr.headersFit, itemsDefaults_bytes _ _ next he.2]
  | .cons .required id (.some expr) next | .cons .rest id (.some expr) next =>
    simp [Scatter.accepts] at he
theorem itemsDefault_bytes (d : ℕ) (saved : Option ℕ) (e : OptExpr) {dollar : Bool}
    (he : e.accepts dollar = true) :
    BytesFit (itemsDefault d saved e) ↔ e.headersFit = true := by
  match e with
  | .none => simp [itemsDefault, OptExpr.headersFit]
  | .some expr =>
    rw [OptExpr.accepts] at he
    simp [itemsDefault, OptExpr.headersFit, itemsExpr_bytes _ _ expr he]
end

mutual
theorem itemsStmt_bytes (d : ℕ) (frames : List Frame) (st : Stmt) {loops : List (Option ℕ)}
    (hs : st.accepts loops = true) :
    BytesFit (itemsStmt d frames st) ↔ st.headersFit = true := by
  match st with
  | .cond arms otherwise =>
    simp only [Stmt.accepts, Bool.and_eq_true] at hs
    simp [itemsStmt, Stmt.headersFit, itemsArms_bytes _ _ _ arms hs.1.2,
      itemsStmts_bytes _ _ otherwise hs.2]
  | .list id expr body =>
    simp only [Stmt.accepts, Bool.and_eq_true] at hs
    simp [itemsStmt, Stmt.headersFit, itemsExpr_bytes _ _ expr hs.1.2,
      itemsStmts_bytes _ _ body hs.2]
  | .range id lo hi body =>
    simp only [Stmt.accepts, Bool.and_eq_true] at hs
    simp [itemsStmt, Stmt.headersFit, and_assoc, itemsExpr_bytes _ _ lo hs.1.1.2,
      itemsExpr_bytes _ _ hi hs.1.2, itemsStmts_bytes _ _ body hs.2]
  | .while id condition body =>
    simp only [Stmt.accepts, Bool.and_eq_true] at hs
    have ht : BytesFit (loopTestItems id) := by cases id <;> simp [loopTestItems]
    simp [itemsStmt, Stmt.headersFit, ht, itemsExpr_bytes _ _ condition hs.1.2,
      itemsStmts_bytes _ _ body hs.2]
  | .fork id time body =>
    simp only [Stmt.accepts, Bool.and_eq_true] at hs
    have hi : BytesFit (forkIdItems id) := by cases id <;> simp [forkIdItems]
    have hf := bytesFit_forked (itemsStmts 0 [] body++[.op .done])
    simp only [itemsStmt, bytesFit_append, itemsExpr_bytes _ _ time hs.1.2, bytesFit_op,
      bytesFit_nil, hf, bytesFit_fork, hi, Stmt.headersFit, and_true]
  | .expr expr | .return (some expr) =>
    simp only [Stmt.accepts] at hs
    simp [itemsStmt, Stmt.headersFit, itemsExpr_bytes _ _ expr hs]
  | .return none => simp [itemsStmt, Stmt.headersFit]
  | .tryExcept body excepts =>
    simp only [Stmt.accepts, Bool.and_eq_true] at hs
    simp only [itemsStmt, bytesFit_append, bytesFit_extended, bytesFit_byte, bytesFit_nil,
      bytesFit_label, itemsStmts_bytes _ _ body hs.1.2, Stmt.headersFit, Bool.and_eq_true,
      decide_eq_true_eq, and_true, and_assoc]
    have he := itemsExcepts_bytes d d frames excepts hs.2
    tauto
  | .tryFinally body handler =>
    simp only [Stmt.accepts, Bool.and_eq_true] at hs
    simp [itemsStmt, Stmt.headersFit, itemsStmts_bytes _ _ body hs.1,
      itemsStmts_bytes _ _ handler hs.2]
  | .break exit | .continue exit =>
    have hx : BytesFit (exitItems exit) := by cases exit <;> simp [exitItems]
    simp [itemsStmt, Stmt.headersFit, hx]
theorem itemsStmts_bytes (d : ℕ) (frames : List Frame) (ss : Stmts) {loops : List (Option ℕ)}
    (hs : ss.accepts loops = true) :
    BytesFit (itemsStmts d frames ss) ↔ ss.headersFit = true := by
  match ss with
  | .nil => simp [itemsStmts, Stmts.headersFit]
  | .cons stmt next =>
    simp only [Stmts.accepts, Bool.and_eq_true] at hs
    simp [itemsStmts, Stmts.headersFit, itemsStmt_bytes _ _ stmt hs.1,
      itemsStmts_bytes _ _ next hs.2]
theorem itemsArms_bytes (d : ℕ) (frames : List Frame) (o : Opcode) (arms : CondArms)
    {loops : List (Option ℕ)} (hs : arms.accepts loops = true) :
    BytesFit (itemsArms d frames o arms) ↔ arms.headersFit = true := by
  match arms with
  | .nil => simp [itemsArms, CondArms.headersFit]
  | .cons condition stmt next =>
    simp only [CondArms.accepts, Bool.and_eq_true] at hs
    simp [itemsArms, CondArms.headersFit, and_assoc, itemsExpr_bytes _ _ condition hs.1.1,
      itemsStmts_bytes _ _ stmt hs.1.2, itemsArms_bytes _ _ _ next hs.2]
/-- The codes of the arms come first, all together. -/
theorem itemsExcepts_bytes (d k : ℕ) (frames : List Frame) (arms : ExceptArms)
    {loops : List (Option ℕ)} (hs : arms.accepts loops = true) :
    BytesFit (handlerItems k arms) ∧ BytesFit (itemsExcepts d frames arms) ↔
      arms.headersFit = true := by
  match arms with
  | .nil => simp [handlerItems, itemsExcepts, ExceptArms.headersFit]
  | .cons id codes stmt next =>
    simp only [ExceptArms.accepts, Bool.and_eq_true] at hs
    have hc : BytesFit (codesOrItems codes (itemsArgList k none codes)) ↔
        codes.headersFit = true := by
      cases codes with
      | nil => simp [codesOrItems, ArgList.headersFit]
      | cons kind expr next => exact itemsArgList_bytes k none (.cons kind expr next) hs.1.1.1.2
    have hi : BytesFit (armIdItems id) := by cases id <;> simp [armIdItems]
    have hx : BytesFit (itemsExcepts d frames (.cons id codes stmt next)) ↔
        stmt.headersFit = true ∧ BytesFit (itemsExcepts d frames next) := by
      cases next with
      | nil => simp [itemsExcepts, hi, itemsStmts_bytes _ _ stmt hs.1.2]
      | cons id' codes' stmt' next' =>
        rw [itemsExcepts]
        simp only [bytesFit_append, hi, bytesFit_op, bytesFit_label, bytesFit_nil,
          itemsStmts_bytes _ _ stmt hs.1.2, and_true, true_and]
    have ih := itemsExcepts_bytes d (k+2) frames next hs.2
    simp only [handlerItems, bytesFit_append, hc, hx, bytesFit_extended, bytesFit_label,
      bytesFit_nil, ExceptArms.headersFit, Bool.and_eq_true, and_true]
    tauto
end

end CodeGen
end LambdaMoo
