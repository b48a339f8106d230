import LambdaMoo.Accounting
import LambdaMoo.Scopes

/-!
# Where the generator stands

`Standing` describes a state by what it has counted, the depth of the operand
stack and the loops around it. Generating an accepted tree takes one
description to the next: the items of the tree are added, the stack is one
value higher after an expression and back at its depth after a statement.
-/

set_option autoImplicit false

namespace LambdaMoo.CodeGen

/-- What the generator has counted and where it stands: the depth of the
operand stack, its maximum so far, the base of `$` and the loops around. -/
structure Standing (s : State) (a : Account) (d m : ℕ) (saved : Option ℕ)
    (frames : List Frame) : Prop where
  account : s.account = a
  cur : s.curStack = d
  max : s.maxStack = m
  savedStack : s.savedStack = saved
  frames : s.loops.map Loop.frame = frames
  le : d ≤ m

namespace Standing

variable {s : State} {a : Account} {d m : ℕ} {saved : Option ℕ} {frames : List Frame}

theorem cast {a' : Account} {d' m' : ℕ} (t : Standing s a d m saved frames) (ha : a = a')
    (hd : d = d') (hm : m = m') : Standing s a' d' m' saved frames := by
  rwa [← ha, ← hd, ← hm]

theorem byte (t : Standing s a d m saved frames) (n : ℕ) :
    Standing (emitByte n s) (a.emit (.byte n)) d m saved frames :=
  ⟨by rw [emitByte_account, t.account], t.cur, t.max, t.savedStack, t.frames, t.le⟩

theorem op (t : Standing s a d m saved frames) (o : Opcode) :
    Standing (emitOp o s) (a.emit (.op o)) d m saved frames := t.byte o.toNat

theorem extended (t : Standing s a d m saved frames) (eop : ExtendedOpcode) :
    Standing (emitExtendedByte eop s) (a.emits (extendedItems eop)) d m saved frames :=
  (t.op .extended).byte eop.toNat

theorem either (t : Standing s a d m saved frames) (o : Opcode ⊕ ExtendedOpcode) :
    Standing (emitEither o s) (a.emits (eitherItems o)) d m saved frames := by
  cases o with
  | inl o => exact t.op o
  | inr eop => exact t.extended eop

theorem literal (t : Standing s a d m saved frames) (v : Var) :
    Standing (addLiteral v s) (a.emit (.literal v)) d m saved frames :=
  ⟨by rw [addLiteral_account, t.account], t.cur, t.max, t.savedStack, t.frames, t.le⟩

theorem fork (t : Standing s a d m saved frames) (b : Finished) :
    Standing (addFork b s) (a.emit .fork) d m saved frames :=
  ⟨by rw [addFork_account, t.account], t.cur, t.max, t.savedStack, t.frames, t.le⟩

theorem varRef (t : Standing s a d m saved frames) (slot : ℕ) :
    Standing (addVarRef slot s) (a.emit (.varRef slot)) d m saved frames :=
  ⟨by rw [addVarRef_account, t.account], t.cur, t.max, t.savedStack, t.frames, t.le⟩

theorem stackRef (t : Standing s a d m saved frames) (index : ℕ) :
    Standing (addStackRef index s) (a.emit (.stack index)) d m saved frames :=
  ⟨by rw [addStackRef_account, t.account], t.cur, t.max, t.savedStack, t.frames, t.le⟩

theorem knownLabel (t : Standing s a d m saved frames) (l : Label) :
    Standing (addKnownLabel l s) (a.emit .label) d m saved frames :=
  ⟨by rw [addKnownLabel_account, t.account], t.cur, t.max, t.savedStack, t.frames, t.le⟩

theorem label (t : Standing s a d m saved frames) (next : Option ℕ) :
    Standing (addLinkedLabel next s).2 (a.emit .label) d m saved frames := t.knownLabel _

theorem define (t : Standing s a d m saved frames) (l : Option ℕ) :
    Standing (defineLabel l s) a d m saved frames :=
  ⟨by rw [defineLabel_account, t.account], t.cur, t.max, t.savedStack, t.frames, t.le⟩

theorem push (t : Standing s a d m saved frames) (n : ℕ) :
    Standing (pushStack n s) a (d+n) (Max.max m (d+n)) saved frames := by
  obtain ⟨rfl, rfl, rfl, rfl, rfl, _⟩ := t
  exact ⟨rfl, rfl, rfl, rfl, rfl, le_max_right _ _⟩

theorem pop (t : Standing s a d m saved frames) (n d' : ℕ) (hd : d = d'+n) :
    Standing (popStack n s) a d' m saved frames :=
  ⟨t.account, by simp [popStack, t.cur, hd], t.max, t.savedStack, t.frames,
    by have := t.le; omega⟩

theorem save (t : Standing s a d m saved frames) :
    Standing (saveStackTop s).2 a d m (some (d-1)) frames := by
  obtain ⟨rfl, rfl, rfl, rfl, rfl, le⟩ := t
  exact ⟨rfl, rfl, rfl, rfl, rfl, le⟩

theorem restore (t : Standing s a d m saved frames) (old : Option ℕ) :
    Standing (restoreStackTop old s) a d m old frames :=
  ⟨t.account, t.cur, t.max, rfl, t.frames, t.le⟩

theorem varOp (t : Standing s a d m saved frames) (isPut : Bool) (slot : ℕ) :
    Standing (emitVarOp isPut slot s) (a.emits (varOpItems isPut slot)) d m saved frames := by
  unfold emitVarOp varOpItems
  split
  · exact t.op _
  · exact (t.op _).varRef slot

theorem enter (t : Standing s a d m saved frames) (id : Option ℕ) (topStack bottomStack : ℕ)
    {top : Label} {bottom : Option ℕ} {topStack' bottomStack' : ℕ} (ht : topStack' = topStack)
    (hb : bottomStack' = bottomStack) :
    Standing (enterLoop id top topStack' bottom bottomStack' s) a d m saved
      (⟨id, topStack, bottomStack⟩::frames) :=
  ⟨t.account, t.cur, t.max, t.savedStack, by rw [← t.frames, ← ht, ← hb]; rfl, t.le⟩

theorem leave {f : Frame} (t : Standing s a d m saved (f::frames)) :
    Standing (exitLoop s).2 a d m saved frames :=
  ⟨t.account, t.cur, t.max, t.savedStack, by
    have := congrArg List.tail t.frames
    rwa [← List.map_tail] at this, t.le⟩

theorem var (t : Standing s a d m saved frames) (v : Var) :
    Standing (emitVar v s) (a.emits (varItems v)) d m saved frames := by
  have hl : Standing (addLiteral v (emitOp .imm s)) (a.emits [.op .imm, .literal v]) d m saved
    frames := (t.op .imm).literal v
  cases v with
  | int n =>
    by_cases hn : inOptimNumRange n = true
    · simp only [emitVar, varItems, hn, if_true]
      exact t.op _
    · simp only [emitVar, varItems, hn]
      exact hl
  | _ => exact hl

end Standing

/-! The maximum after one part of a tree and then another. -/

theorem max_need (m d x y : ℕ) : max (max m (d+x)) (d+y) = max m (d+max x y) := by
  rw [max_assoc, Nat.add_max_add_left]

theorem max_need_above (m d k x y : ℕ) :
    max (max m (d+x)) (d+k+y) = max m (d+max x (y+k)) := by
  rw [add_assoc, add_comm k, max_need]

theorem max_need_pushed (m d x : ℕ) : max (max m d) (d+x) = max m (d+x) := by
  rw [max_assoc, max_eq_right (Nat.le_add_right d x)]

theorem max_need_below (m d k x y : ℕ) :
    max (max m (d+k+x)) (d+y) = max m (d+max (x+k) y) := by
  rw [add_assoc, add_comm k, max_need]

theorem lvalueDepth_above (lhs : Expr) (hl : lhs.isIndexBase = true) :
    lvalueDepth lhs true = lvalueDepth lhs false+1 := by
  cases lhs <;> simp_all [Expr.isIndexBase, lvalueDepth]

/-- The stores through indexes end with the assigned value alone above the
depth `d` at which the code of the left-hand side began. -/
theorem storeIndexBase_standing (lhs : Expr) (hl : lhs.isIndexBase = true) {s s' : State}
    {a : Account} {d m : ℕ} {saved : Option ℕ} {frames : List Frame}
    (t : Standing s a (d+lvalueDepth lhs true) m saved frames) (h : storeLvalue lhs s = .ok s') :
    Standing s' (a.emits (storeItems lhs)) (d+1) m saved frames := by
  match lhs with
  | .index base index =>
    rw [storeLvalue] at h
    exact storeIndexBase_standing base hl ((t.op .indexset).pop 2 _ rfl) h
  | .id slot =>
    rw [storeLvalue, Except.ok.injEq] at h
    subst h
    exact t.varOp true slot
  | .prop obj name =>
    rw [storeLvalue, Except.ok.injEq] at h
    subst h
    exact (t.op .putProp).pop 2 _ rfl

theorem storeLvalue_standing (lhs : Expr) (hl : lhs.isLvalue = true) {s s' : State}
    {a : Account} {d m : ℕ} {saved : Option ℕ} {frames : List Frame}
    (t : Standing s a (d+lvalueDepth lhs false+1) m saved frames)
    (h : storeLvalue lhs s = .ok s') :
    Standing s' (a.emits (storeItems lhs)) (d+1) m saved frames := by
  cases lhs with
  | range base lo hi =>
    rw [storeLvalue] at h
    rw [storeItems, Account.emits_append]
    exact storeIndexBase_standing base hl ((t.extended .rangeset).pop 3 _ rfl) h
  | _ =>
    rw [add_assoc, ← lvalueDepth_above _ hl] at t
    exact storeIndexBase_standing _ hl t h

theorem itemsExpr_asgn (lhs rhs : Expr) (hl : ∀ sc, lhs ≠ .scatter sc) (d : ℕ)
    (saved : Option ℕ) :
    itemsExpr d saved (.asgn lhs rhs) =
      itemsLvalue d saved lhs false++itemsExpr (d+lvalueDepth lhs false) saved rhs
        ++(if Expr.isIndexed lhs then [.op .putTemp] else [])++storeItems lhs
        ++(if Expr.isIndexed lhs then [.op .pop, .op .pushTemp] else []) := by
  cases lhs <;> first | rfl | exact absurd rfl (hl _)

theorem needExpr_asgn (lhs rhs : Expr) (hl : ∀ sc, lhs ≠ .scatter sc) :
    needExpr (.asgn lhs rhs) = max (needLvalue lhs false) (needExpr rhs+lvalueDepth lhs false) := by
  cases lhs <;> first | rfl | exact absurd rfl (hl _)

/-- What an assignment does with the value of its right-hand side. -/
def storeRhs (lhs : Expr) (s : State) : Result State := do
  let s ← storeLvalue lhs (if Expr.isIndexed lhs then emitOp .putTemp s else s)
  return if Expr.isIndexed lhs then emitOp .pushTemp (emitOp .pop s) else s

theorem generateExpr_asgn (lhs rhs : Expr) (hl : ∀ sc, lhs ≠ .scatter sc) (s : State) :
    generateExpr (.asgn lhs rhs) s = (do
      let s ← pushLvalue lhs false s
      let s ← generateExpr rhs s
      storeRhs lhs s) := by
  cases lhs <;> first | rfl | exact absurd rfl (hl _)

theorem storeRhs_standing (lhs : Expr) (hl : lhs.isLvalue = true) {s s' : State}
    {a : Account} {d m : ℕ} {saved : Option ℕ} {frames : List Frame}
    (t : Standing s a (d+lvalueDepth lhs false+1) m saved frames) (h : storeRhs lhs s = .ok s') :
    Standing s' (a.emits ((if Expr.isIndexed lhs then [.op .putTemp] else [])++storeItems lhs
      ++(if Expr.isIndexed lhs then [.op .pop, .op .pushTemp] else []))) (d+1) m saved frames := by
  simp only [storeRhs, bind_ok, pure_ok] at h
  obtain ⟨s1, h1, rfl⟩ := h
  cases hi : Expr.isIndexed lhs with
  | false =>
    rw [hi] at h1
    exact (storeLvalue_standing lhs hl t h1).cast (by simp) rfl rfl
  | true =>
    rw [hi] at h1
    have t1 := storeLvalue_standing lhs hl (t.op .putTemp) h1
    exact ((t1.op .pop).op .pushTemp).cast (by simp) rfl rfl

def Scatter.defaults : Scatter → ℕ
  | .nil => 0
  | .cons .optional _ (.some _) next => Scatter.defaults next+1
  | .cons _ _ _ next => Scatter.defaults next

theorem scatterTargets_length (sc : Scatter) (s : State) :
    (scatterTargets sc s).1.length = Scatter.defaults sc := by
  match sc with
  | .nil => rfl
  | .cons .optional id (.some e) next =>
    exact congrArg (·+1) (scatterTargets_length next _)
  | .cons .optional id .none next | .cons .required id _ next | .cons .rest id _ next =>
    exact scatterTargets_length next _

theorem scatterTargets_standing (sc : Scatter) {s : State}
    {a : Account} {d m : ℕ} {saved : Option ℕ} {frames : List Frame}
    (t : Standing s a d m saved frames) :
    Standing (scatterTargets sc s).2 (a.emits (targetItems sc)) d m saved frames := by
  match sc with
  | .nil => exact t
  | .cons .optional id (.some e) next =>
    exact scatterTargets_standing next ((t.varRef id).label none)
  | .cons .optional id .none next | .cons .required id _ next | .cons .rest id _ next =>
    exact scatterTargets_standing next ((t.varRef id).knownLabel _)

mutual
theorem generateExpr_stands (e : Expr) {n : ℕ} {dollar : Bool}
    (he : e.scoped n dollar = true) {s s' : State} {a : Account} {d m : ℕ}
    {saved : Option ℕ} {frames : List Frame} (t : Standing s a d m saved frames)
    (h : generateExpr e s = .ok s') :
    Standing s' (a.emits (itemsExpr d saved e)) (d+1) (max m (d+needExpr e)) saved frames := by
  match e with
  | .var v =>
    rw [generateExpr, Except.ok.injEq] at h
    subst h
    exact (t.var v).push 1
  | .id slot =>
    simp only [generateExpr, Except.ok.injEq] at h
    subst h
    exact (t.varOp false slot).push 1
  | .and lhs rhs =>
    simp only [Expr.scoped, Bool.and_eq_true] at he
    simp only [generateExpr, bind_ok, pure_ok] at h
    obtain ⟨s1, h1, s2, h2, rfl⟩ := h
    have t1 := generateExpr_stands lhs he.1 t h1
    have t2 := generateExpr_stands rhs he.2 (((t1.op .and).label none).pop 1 d rfl) h2
    exact (t2.define _).cast (by simp [itemsExpr]) rfl (by rw [needExpr, max_need])
  | .or lhs rhs =>
    simp only [Expr.scoped, Bool.and_eq_true] at he
    simp only [generateExpr, bind_ok, pure_ok] at h
    obtain ⟨s1, h1, s2, h2, rfl⟩ := h
    have t1 := generateExpr_stands lhs he.1 t h1
    have t2 := generateExpr_stands rhs he.2 (((t1.op .or).label none).pop 1 d rfl) h2
    exact (t2.define _).cast (by simp [itemsExpr]) rfl (by rw [needExpr, max_need])
  | .unary op arg =>
    rw [Expr.scoped] at he
    simp only [generateExpr, bind_ok, pure_ok] at h
    obtain ⟨s1, h1, rfl⟩ := h
    have t1 := generateExpr_stands arg he t h1
    exact (t1.either op.opcode).cast (by simp [itemsExpr]) rfl (by rw [needExpr])
  | .binary op lhs rhs =>
    simp only [Expr.scoped, Bool.and_eq_true] at he
    simp only [generateExpr, bind_ok, pure_ok] at h
    obtain ⟨s1, h1, s2, h2, rfl⟩ := h
    have t1 := generateExpr_stands lhs he.1 t h1
    have t2 := generateExpr_stands rhs he.2 t1 h2
    exact ((t2.either op.opcode).pop 1 (d+1) rfl).cast (by simp [itemsExpr]) rfl
      (by rw [needExpr, max_need_above])
  | .prop obj name =>
    simp only [Expr.scoped, Bool.and_eq_true] at he
    simp only [generateExpr, bind_ok, pure_ok] at h
    obtain ⟨s1, h1, s2, h2, rfl⟩ := h
    have t1 := generateExpr_stands obj he.1 t h1
    have t2 := generateExpr_stands name he.2 t1 h2
    exact ((t2.op .getProp).pop 1 (d+1) rfl).cast (by simp [itemsExpr]) rfl
      (by rw [needExpr, max_need_above])
  | .index base index =>
    simp only [Expr.scoped, Bool.and_eq_true] at he
    simp only [generateExpr, bind_ok, pure_ok] at h
    obtain ⟨s1, h1, s2, h2, rfl⟩ := h
    have t1 := generateExpr_stands base he.1 t h1
    have t2 := generateExpr_stands index he.2 t1.save h2
    rw [saveStackTop, t1.savedStack]
    exact (((t2.restore saved).op .ref).pop 1 (d+1) rfl).cast (by simp [itemsExpr]) rfl
      (by rw [needExpr, max_need_above])
  | .range base lo hi =>
    simp only [Expr.scoped, Bool.and_eq_true] at he
    simp only [generateExpr, bind_ok, pure_ok] at h
    obtain ⟨s1, h1, s2, h2, s3, h3, rfl⟩ := h
    have t1 := generateExpr_stands base he.1.1 t h1
    have t2 := generateExpr_stands lo he.1.2 t1.save h2
    have t3 := generateExpr_stands hi he.2 t2 h3
    rw [saveStackTop, t1.savedStack]
    exact (((t3.restore saved).op .rangeRef).pop 2 (d+1) rfl).cast (by simp [itemsExpr]) rfl
      (by rw [needExpr, max_need_above, max_need_above, ← Nat.add_max_add_right])
  | .length =>
    rw [generateExpr, t.savedStack] at h
    cases saved with
    | none => simp at h
    | some index =>
      simp only [Except.ok.injEq] at h
      subst h
      exact ((t.extended .length).stackRef index).push 1
  | .list args =>
    rw [Expr.scoped] at he
    rw [generateExpr] at h
    rw [itemsExpr, needExpr]
    exact generateArgList_stands args he t h
  | .call func args =>
    rw [Expr.scoped] at he
    simp only [generateExpr, bind_ok, pure_ok] at h
    obtain ⟨s1, h1, rfl⟩ := h
    have t1 := generateArgList_stands args he t h1
    exact ((t1.op .biFuncCall).byte func).cast (by simp [itemsExpr]) rfl (by rw [needExpr])
  | .verb obj name args =>
    simp only [Expr.scoped, Bool.and_eq_true] at he
    simp only [generateExpr, bind_ok, pure_ok] at h
    obtain ⟨s1, h1, s2, h2, s3, h3, rfl⟩ := h
    have t1 := generateExpr_stands obj he.1.1 t h1
    have t2 := generateExpr_stands name he.1.2 t1 h2
    have t3 := generateArgList_stands args he.2 t2 h3
    exact ((t3.op .callVerb).pop 2 (d+1) rfl).cast (by simp [itemsExpr]) rfl
      (by rw [needExpr, max_need_above, max_need_above, ← Nat.add_max_add_right])
  | .cond condition consequent alternate =>
    simp only [Expr.scoped, Bool.and_eq_true] at he
    simp only [generateExpr, bind_ok, pure_ok] at h
    obtain ⟨s1, h1, s2, h2, s3, h3, rfl⟩ := h
    have t1 := generateExpr_stands condition he.1.1 t h1
    have t2 := generateExpr_stands consequent he.1.2 (((t1.op .ifQues).label none).pop 1 d rfl) h2
    have t3 := generateExpr_stands alternate he.2
      ((((t2.op .jump).label none).pop 1 d rfl).define _) h3
    exact (t3.define _).cast (by simp [itemsExpr]) rfl
      (by rw [needExpr, max_need, max_need])
  | .catch body codes default =>
    simp only [Expr.scoped, Bool.and_eq_true] at he
    simp only [generateExpr, bind_ok, pure_ok] at h
    obtain ⟨s1, h1, s2, h2, s3, h3, rfl⟩ := h
    have t1 : Standing s1 (a.emits (codesOrItems codes (itemsArgList d saved codes))) (d+1)
        (max m (d+needArgList codes)) saved frames := by
      match codes with
      | .nil =>
        rw [codesOr, Except.ok.injEq] at h1
        subst h1
        exact (t.op _).push 1
      | .cons kind expr next => exact generateArgList_stands _ he.1.2 t h1
    have t1' := ((((t1.extended .pushLabel).label none).push 1).extended .catch).push 1
    have t2 := generateExpr_stands body he.1.1 t1' h2
    have t2' := ((t2.extended .endCatch).label none).pop 3 (d+1) rfl
    have t3 := generateDefault_stands default he.2 (t2'.define _) h3
    refine (t3.define _).cast (by simp [itemsExpr]) rfl ?_
    rw [needExpr, max_need_pushed, add_assoc (d+1+1), max_need_pushed, ← add_assoc,
      show d+1+1+1 = d+3 from rfl, max_need_above, max_need, max_assoc]
  | .scatter _ => simp [generateExpr] at h
  | .asgn (.scatter sc) rhs =>
    simp only [Expr.scoped, Bool.and_eq_true] at he
    simp only [generateExpr, bind_ok, pure_ok] at h
    obtain ⟨s1, h1, s2, h2, rfl⟩ := h
    have t1 := generateExpr_stands rhs he.2 t h1
    have t1' := (((t1.extended .scatter).byte sc.length).byte (Scatter.nreq sc)).byte
      (Scatter.rest sc)
    have t2 := generateDefaults_stands sc he.1
      (scatterTargets_length sc _) ((scatterTargets_standing sc t1').label none) h2
    exact (t2.define _).cast (by simp [itemsExpr]) rfl (by rw [needExpr, max_need_above])
  | .asgn (.id _) rhs | .asgn (.prop _ _) rhs | .asgn (.index _ _) rhs | .asgn (.range _ _ _) rhs =>
    rw [Expr.scoped_asgn _ rhs (by simp), Bool.and_eq_true, Bool.and_eq_true] at he
    rw [generateExpr_asgn _ rhs (by simp), bind_ok] at h
    obtain ⟨s1, h1, h⟩ := h
    rw [bind_ok] at h
    obtain ⟨s2, h2, h3⟩ := h
    have t1 := pushLvalue_stands _ false he.1.2 t h1
    have t2 := generateExpr_stands rhs he.2 t1 h2
    rw [itemsExpr_asgn _ rhs (by simp), needExpr_asgn _ rhs (by simp)]
    exact (storeRhs_standing _ he.1.1 t2 h3).cast (by simp) rfl (max_need_above _ _ _ _ _)
  | .asgn (.var _) _ | .asgn (.verb _ _ _) _ | .asgn (.asgn _ _) _ | .asgn (.call _ _) _
  | .asgn (.binary _ _ _) _ | .asgn (.and _ _) _ | .asgn (.or _ _) _ | .asgn (.unary _ _) _
  | .asgn (.list _) _ | .asgn (.cond _ _ _) _ | .asgn (.catch _ _ _) _ | .asgn .length _ =>
    simp [Expr.scoped, Expr.isLvalue, Expr.isIndexBase] at he
theorem generateArgList_stands (args : ArgList) {n : ℕ} {dollar : Bool}
    (he : args.scoped n dollar = true) {s s' : State} {a : Account} {d m : ℕ}
    {saved : Option ℕ} {frames : List Frame} (t : Standing s a d m saved frames)
    (h : generateArgList args s = .ok s') :
    Standing s' (a.emits (itemsArgList d saved args)) (d+1) (max m (d+needArgList args)) saved
      frames := by
  match args with
  | .nil =>
    simp only [generateArgList, Except.ok.injEq] at h
    subst h
    exact (t.op .makeEmptyList).push 1
  | .cons kind expr next =>
    simp only [ArgList.scoped, Bool.and_eq_true] at he
    simp only [generateArgList, bind_ok] at h
    obtain ⟨s1, h1, h2⟩ := h
    have t1 := generateExpr_stands expr he.1 t h1
    have t2 := generateArgs_stands next he.2 (t1.op _) h2
    exact t2.cast (by simp [itemsArgList]) rfl (by rw [needArgList, max_need])
theorem generateArgs_stands (args : ArgList) {n : ℕ} {dollar : Bool}
    (he : args.scoped n dollar = true) {s s' : State} {a : Account} {d m : ℕ}
    {saved : Option ℕ} {frames : List Frame} (t : Standing s a (d+1) m saved frames)
    (h : generateArgs args s = .ok s') :
    Standing s' (a.emits (itemsArgs d saved args)) (d+1) (max m (d+needArgs args)) saved
      frames := by
  match args with
  | .nil =>
    simp only [generateArgs, Except.ok.injEq] at h
    subst h
    have := t.le
    exact t.cast (by simp [itemsArgs]) rfl (by rw [needArgs]; omega)
  | .cons kind expr next =>
    simp only [ArgList.scoped, Bool.and_eq_true] at he
    simp only [generateArgs, bind_ok] at h
    obtain ⟨s1, h1, h2⟩ := h
    have t1 := generateExpr_stands expr he.1 t h1
    have t2 := generateArgs_stands next he.2 ((t1.op _).pop 1 (d+1) rfl) h2
    exact t2.cast (by simp [itemsArgs]) rfl (by rw [needArgs, max_need_below])
theorem pushLvalue_stands (e : Expr) (above : Bool) {n : ℕ} {dollar : Bool}
    (he : e.scoped n dollar = true) {s s' : State} {a : Account} {d m : ℕ}
    {saved : Option ℕ} {frames : List Frame} (t : Standing s a d m saved frames)
    (h : pushLvalue e above s = .ok s') :
    Standing s' (a.emits (itemsLvalue d saved e above)) (d+lvalueDepth e above)
      (max m (d+needLvalue e above)) saved frames := by
  match e with
  | .range base lo hi =>
    simp only [Expr.scoped, Bool.and_eq_true] at he
    simp only [pushLvalue, bind_ok, pure_ok] at h
    obtain ⟨s1, h1, s2, h2, s3, h3, rfl⟩ := h
    have t1 := pushLvalue_stands base true he.1.1 t h1
    have t2 := generateExpr_stands lo he.1.2 t1.save h2
    have t3 := generateExpr_stands hi he.2 t2 h3
    rw [saveStackTop, t1.savedStack]
    exact (t3.restore saved).cast (by simp [itemsLvalue]) rfl
      (by rw [needLvalue, max_need_above, max_need_above, ← Nat.add_max_add_right,
        Nat.add_right_comm])
  | .index base index => 
    simp only [Expr.scoped, Bool.and_eq_true] at he
    simp only [pushLvalue, bind_ok, pure_ok] at h
    obtain ⟨s1, h1, s2, h2, rfl⟩ := h
    have t1 := pushLvalue_stands base true he.1 t h1
    have t2 := generateExpr_stands index he.2 t1.save h2
    rw [saveStackTop, t1.savedStack]
    have t3 := t2.restore saved
    have := t2.le
    cases above with
    | false =>
      exact t3.cast (by simp [itemsLvalue]) rfl (by rw [needLvalue, Bool.toNat_false]; omega)
    | true =>
      exact ((t3.op .pushRef).push 1).cast (by simp [itemsLvalue]) rfl
        (by
          rw [needLvalue, Bool.toNat_true, max_need_above, max_need_above,
            ← Nat.add_max_add_right, add_comm (1+1), ← add_assoc])
  | .id slot =>
    rw [pushLvalue, Except.ok.injEq] at h
    subst h
    cases above with
    | false =>
      have := t.le
      exact t.cast (by simp [itemsLvalue]) rfl (by rw [needLvalue, Bool.toNat_false]; omega)
    | true => exact (t.varOp false slot).push 1
  | .prop obj name =>
    simp only [Expr.scoped, Bool.and_eq_true] at he
    simp only [pushLvalue, bind_ok, pure_ok] at h
    obtain ⟨s1, h1, s2, h2, rfl⟩ := h
    have t1 := generateExpr_stands obj he.1 t h1
    have t2 := generateExpr_stands name he.2 t1 h2
    cases above with
    | false =>
      have := t2.le
      exact t2.cast (by simp [itemsLvalue]) rfl (by rw [needLvalue, Bool.toNat_false]; omega)
    | true =>
      exact ((t2.op .pushGetProp).push 1).cast (by simp [itemsLvalue]) rfl
        (by
          rw [needLvalue, Bool.toNat_true, max_need_above, max_need_above,
            ← Nat.add_max_add_right])
  | .var _ | .verb _ _ _ | .asgn _ _ | .call _ _ | .binary _ _ _ | .and _ _ | .or _ _
  | .unary _ _ | .list _ | .cond _ _ _ | .catch _ _ _ | .length | .scatter _ =>
    simp [pushLvalue] at h
theorem generateDefaults_stands (sc : Scatter) {n : ℕ} {dollar : Bool}
    (he : sc.scoped n dollar = true) {labels : List ℕ}
    (hl : labels.length = Scatter.defaults sc) {s s' : State} {a : Account} {d m : ℕ}
    {saved : Option ℕ} {frames : List Frame} (t : Standing s a d m saved frames)
    (h : generateDefaults sc labels s = .ok s') :
    Standing s' (a.emits (itemsDefaults d saved sc)) d (max m (d+needDefaults sc)) saved
      frames := by
  match sc, labels with
  | .nil, _ =>
    rw [generateDefaults, Except.ok.injEq] at h
    subst h
    have := t.le
    exact t.cast rfl rfl (by rw [needDefaults]; omega)
  | .cons .optional id (.some expr) next, label::labels =>
    simp only [Scatter.scoped, OptExpr.scoped, Bool.and_eq_true] at he
    simp only [generateDefaults, bind_ok] at h
    obtain ⟨s1, h1, h2⟩ := h
    have t1 := generateExpr_stands expr he.1.2 (t.define _) h1
    have t2 := generateDefaults_stands next he.2 (Nat.succ.inj hl)
      (((t1.varOp true id).op .pop).pop 1 d rfl) h2
    exact t2.cast (by simp [itemsDefaults]) rfl (by rw [needDefaults, max_need])
  | .cons .optional id (.some expr) next, [] => simp [Scatter.defaults] at hl
  | .cons .optional id .none next, _ | .cons .required id _ next, _ | .cons .rest id _ next, _ =>
    simp only [Scatter.scoped, Bool.and_eq_true] at he
    simp only [generateDefaults] at h
    exact generateDefaults_stands next he.2 hl t h
theorem generateDefault_stands (e : OptExpr) {n : ℕ} {dollar : Bool}
    (he : e.scoped n dollar = true) {s s' : State} {a : Account} {d m : ℕ}
    {saved : Option ℕ} {frames : List Frame} (t : Standing s a (d+1) m saved frames)
    (h : generateDefault e s = .ok s') :
    Standing s' (a.emits (itemsDefault d saved e)) (d+1) (max m (d+needDefault e)) saved
      frames := by
  match e with
  | .some expr =>
    rw [OptExpr.scoped] at he
    rw [generateDefault] at h
    exact generateExpr_stands expr he ((t.op .pop).pop 1 d rfl) h
  | .none =>
    rw [generateDefault, Except.ok.injEq] at h
    subst h
    have := t.le
    exact ((t.op _).op .ref).cast rfl rfl (by rw [needDefault]; omega)
end

section
variable {dollar : Bool} {s s' : State} {a : Account} {d m : ℕ} {saved : Option ℕ}
  {frames : List Frame}

theorem generateExpr_standing (e : Expr) (he : e.accepts dollar = true)
    (t : Standing s a d m saved frames) (h : generateExpr e s = .ok s') :
    Standing s' (a.emits (itemsExpr d saved e)) (d+1) (max m (d+needExpr e)) saved frames :=
  generateExpr_stands e (e.accepts_scoped he) t h

theorem generateArgList_standing (args : ArgList) (he : args.accepts dollar = true)
    (t : Standing s a d m saved frames) (h : generateArgList args s = .ok s') :
    Standing s' (a.emits (itemsArgList d saved args)) (d+1) (max m (d+needArgList args)) saved
      frames :=
  generateArgList_stands args (args.accepts_scoped he) t h

theorem pushLvalue_standing (e : Expr) (above : Bool) (he : e.accepts dollar = true)
    (t : Standing s a d m saved frames) (h : pushLvalue e above s = .ok s') :
    Standing s' (a.emits (itemsLvalue d saved e above)) (d+lvalueDepth e above)
      (max m (d+needLvalue e above)) saved frames :=
  pushLvalue_stands e above (e.accepts_scoped he) t h

end

end LambdaMoo.CodeGen
