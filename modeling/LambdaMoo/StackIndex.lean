import LambdaMoo.Relocation

/-!
# Stack indexes

An index into the operand stack is at most the greatest depth of the vector:
`$` refers below the current depth and a loop exit to the depth of a loop.
-/

set_option autoImplicit false

namespace LambdaMoo.CodeGen

/-- All stack references among the items are at most `b`. -/
def StackWithin (b : ℕ) (items : List Item) : Prop := ∀ k, Item.stack k ∈ items → k ≤ b

theorem StackWithin.mono {b b' : ℕ} {items : List Item} (h : StackWithin b items) (hb : b ≤ b') :
    StackWithin b' items := fun k hk => (h k hk).trans hb

theorem StackWithin.none {b : ℕ} {items : List Item} (h : ∀ k, Item.stack k ∉ items) :
    StackWithin b items := fun k hk => absurd hk (h k)

theorem StackWithin.append {b : ℕ} {items items' : List Item} (h : StackWithin b items)
    (h' : StackWithin b items') : StackWithin b (items++items') :=
  fun k hk => (List.mem_append.mp hk).elim (h k) (h' k)

theorem varOpItems_stack (isPut : Bool) (slot k : ℕ) : Item.stack k ∉ varOpItems isPut slot := by
  unfold varOpItems
  split <;> simp [Item.op]

theorem varItems_stack (v : Var) (k : ℕ) : Item.stack k ∉ varItems v := by
  unfold varItems
  split
  · split <;> simp [Item.op]
  · simp [Item.op]

theorem eitherItems_stack (o : Opcode ⊕ ExtendedOpcode) (k : ℕ) : Item.stack k ∉ eitherItems o := by
  cases o <;> simp [eitherItems, extendedItems, Item.op]

theorem targetItems_stack (sc : Scatter) (k : ℕ) : Item.stack k ∉ targetItems sc := by
  match sc with
  | .nil => simp [targetItems]
  | .cons kind id default next => simp [targetItems, targetItems_stack next k]

theorem storeItems_stack (e : Expr) (k : ℕ) : Item.stack k ∉ storeItems e := by
  cases e with
  | range base lo hi => simp [storeItems, extendedItems, Item.op, storeItems_stack base k]
  | index base index => simp [storeItems, Item.op, storeItems_stack base k]
  | id slot => exact varOpItems_stack true slot k
  | prop obj name => simp [storeItems, Item.op]
  | _ => simp [storeItems]

theorem ite_stack (b : Bool) {items : List Item} (k : ℕ) (h : Item.stack k ∉ items) :
    Item.stack k ∉ (if b then items else []) := by
  cases b <;> simp [h]

mutual
theorem itemsExpr_stack (d : ℕ) (saved : Option ℕ) (hd : ∀ k ∈ saved, k ≤ d) (e : Expr) :
    StackWithin (d+needExpr e) (itemsExpr d saved e) := by
  have hd1 : ∀ k ∈ saved, k ≤ d+1 := fun k hk => (hd k hk).trans (by omega)
  have hd2 : ∀ k ∈ saved, k ≤ d+2 := fun k hk => (hd k hk).trans (by omega)
  match e with
  | .var v => exact .none (varItems_stack v)
  | .id slot => exact .none (varOpItems_stack false slot)
  | .and lhs rhs | .or lhs rhs =>
    have h1 := itemsExpr_stack d saved hd lhs
    have h2 := itemsExpr_stack d saved hd rhs
    exact ((h1.mono (by rw [needExpr]; omega)).append (.none (by simp [Item.op]))).append
      (h2.mono (by rw [needExpr]; omega))
  | .unary op arg => exact (itemsExpr_stack d saved hd arg).append (.none (eitherItems_stack _))
  | .binary op lhs rhs =>
    have h1 := itemsExpr_stack d saved hd lhs
    have h2 := itemsExpr_stack (d+1) saved hd1 rhs
    exact ((h1.mono (by rw [needExpr]; omega)).append (h2.mono (by rw [needExpr]; omega))).append
      (.none (eitherItems_stack _))
  | .prop obj name =>
    have h1 := itemsExpr_stack d saved hd obj
    have h2 := itemsExpr_stack (d+1) saved hd1 name
    exact ((h1.mono (by rw [needExpr]; omega)).append (h2.mono (by rw [needExpr]; omega))).append
      (.none (by simp [Item.op]))
  | .index base index =>
    have h1 := itemsExpr_stack d saved hd base
    have h2 := itemsExpr_stack (d+1) (some d) (by simp) index
    exact ((h1.mono (by rw [needExpr]; omega)).append (h2.mono (by rw [needExpr]; omega))).append
      (.none (by simp [Item.op]))
  | .range base lo hi =>
    have h1 := itemsExpr_stack d saved hd base
    have h2 := itemsExpr_stack (d+1) (some d) (by simp) lo
    have h3 := itemsExpr_stack (d+2) (some d) (by simp) hi
    exact (((h1.mono (by rw [needExpr]; omega)).append (h2.mono (by rw [needExpr]; omega))).append
      (h3.mono (by rw [needExpr]; omega))).append (.none (by simp [Item.op]))
  | .length =>
    refine StackWithin.append (.none (by simp [extendedItems, Item.op])) fun k hk => ?_
    simp only [List.mem_singleton, Item.stack.injEq] at hk
    cases saved with
    | none => simp [hk]
    | some i =>
      have := hd i rfl
      simp only [Option.getD_some] at hk
      omega
  | .list args => exact itemsArgList_stack d saved hd args
  | .call func args => exact (itemsArgList_stack d saved hd args).append (.none (by simp [Item.op]))
  | .verb obj name args =>
    have h1 := itemsExpr_stack d saved hd obj
    have h2 := itemsExpr_stack (d+1) saved hd1 name
    have h3 := itemsArgList_stack (d+2) saved hd2 args
    exact (((h1.mono (by rw [needExpr]; omega)).append (h2.mono (by rw [needExpr]; omega))).append
      (h3.mono (by rw [needExpr]; omega))).append (.none (by simp [Item.op]))
  | .cond condition consequent alternate =>
    have h1 := itemsExpr_stack d saved hd condition
    have h2 := itemsExpr_stack d saved hd consequent
    have h3 := itemsExpr_stack d saved hd alternate
    exact ((((h1.mono (by rw [needExpr]; omega)).append (.none (by simp [Item.op]))).append
      (h2.mono (by rw [needExpr]; omega))).append (.none (by simp [Item.op]))).append
      (h3.mono (by rw [needExpr]; omega))
  | .asgn (.scatter sc) rhs =>
    have h1 := itemsExpr_stack d saved hd rhs
    have h2 := itemsDefaults_stack (d+1) saved hd1 sc
    exact (((((h1.mono (by rw [needExpr]; omega)).append
      (.none (by simp [extendedItems, Item.op]))).append (.none (by simp))).append
      (.none (targetItems_stack sc))).append (.none (by simp))).append
      (h2.mono (by rw [needExpr]; omega))
  | .asgn (.id _) rhs | .asgn (.prop _ _) rhs | .asgn (.index _ _) rhs | .asgn (.range _ _ _) rhs
  | .asgn (.var _) rhs | .asgn (.verb _ _ _) rhs | .asgn (.asgn _ _) rhs | .asgn (.call _ _) rhs
  | .asgn (.binary _ _ _) rhs | .asgn (.and _ _) rhs | .asgn (.or _ _) rhs | .asgn (.unary _ _) rhs
  | .asgn (.list _) rhs | .asgn (.cond _ _ _) rhs | .asgn (.catch _ _ _) rhs | .asgn .length rhs =>
    rw [itemsExpr_asgn _ rhs (by simp), needExpr_asgn _ rhs (by simp)]
    exact (((((itemsLvalue_stack d saved hd _ false).mono (by omega)).append
      ((itemsExpr_stack _ saved (fun k hk => (hd k hk).trans (by omega)) rhs).mono
        (by omega))).append (.none fun k => ite_stack _ k (by simp [Item.op]))).append
      (.none (storeItems_stack _))).append (.none fun k => ite_stack _ k (by simp [Item.op]))
  | .catch body codes default =>
    have h1 : StackWithin (d+needExpr (.catch body codes default))
        (codesOrItems codes (itemsArgList d saved codes)) := by
      match codes with
      | .nil => exact .none (by simp [codesOrItems, Item.op])
      | .cons kind expr next =>
        exact (itemsArgList_stack d saved hd (.cons kind expr next)).mono
          (by rw [needExpr]; omega)
    have h2 := itemsExpr_stack (d+3) saved (fun k hk => (hd k hk).trans (by omega)) body
    have h3 := itemsDefault_stack d saved hd default
    exact ((((((h1.append (.none (by simp [extendedItems, Item.op]))).append
      (.none (by simp))).append (.none (by simp [extendedItems, Item.op]))).append
      (h2.mono (by rw [needExpr]; omega))).append (.none (by simp [extendedItems, Item.op]))).append
      (.none (by simp))).append (h3.mono (by rw [needExpr]; omega))
  | .scatter _ => exact .none (by simp [itemsExpr])
theorem itemsArgList_stack (d : ℕ) (saved : Option ℕ) (hd : ∀ k ∈ saved, k ≤ d)
    (args : ArgList) : StackWithin (d+needArgList args) (itemsArgList d saved args) := by
  match args with
  | .nil => exact .none (by simp [itemsArgList, Item.op])
  | .cons kind expr next =>
    have h1 := itemsExpr_stack d saved hd expr
    have h2 := itemsArgs_stack d saved hd next
    exact ((h1.mono (by rw [needArgList]; omega)).append (.none (by simp [Item.op]))).append
      (h2.mono (by rw [needArgList]; omega))
theorem itemsArgs_stack (d : ℕ) (saved : Option ℕ) (hd : ∀ k ∈ saved, k ≤ d)
    (args : ArgList) : StackWithin (d+needArgs args) (itemsArgs d saved args) := by
  match args with
  | .nil => exact .none (by simp [itemsArgs])
  | .cons kind expr next =>
    have h1 := itemsExpr_stack (d+1) saved (fun k hk => (hd k hk).trans (by omega)) expr
    have h2 := itemsArgs_stack d saved hd next
    exact ((h1.mono (by rw [needArgs]; omega)).append (.none (by simp [Item.op]))).append
      (h2.mono (by rw [needArgs]; omega))
theorem itemsLvalue_stack (d : ℕ) (saved : Option ℕ) (hd : ∀ k ∈ saved, k ≤ d)
    (e : Expr) (above : Bool) :
    StackWithin (d+needLvalue e above) (itemsLvalue d saved e above) := by
  match e with
  | .range base lo hi =>
    have h1 := itemsLvalue_stack d saved hd base true
    have h2 := itemsExpr_stack (d+lvalueDepth base true) (some (d+lvalueDepth base true-1))
      (by simp) lo
    have h3 := itemsExpr_stack (d+lvalueDepth base true+1) (some (d+lvalueDepth base true-1))
      (by simp; omega) hi
    exact ((h1.mono (by rw [needLvalue]; omega)).append (h2.mono (by rw [needLvalue]; omega))).append
      (h3.mono (by rw [needLvalue]; omega))
  | .index base index =>
    have h1 := itemsLvalue_stack d saved hd base true
    have h2 := itemsExpr_stack (d+lvalueDepth base true) (some (d+lvalueDepth base true-1))
      (by simp) index
    exact ((h1.mono (by rw [needLvalue]; omega)).append (h2.mono (by rw [needLvalue]; omega))).append
      (.none fun k => ite_stack _ k (by simp [Item.op]))
  | .id slot => exact .none fun k => ite_stack _ k (varOpItems_stack false slot k)
  | .prop obj name =>
    have h1 := itemsExpr_stack d saved hd obj
    have h2 := itemsExpr_stack (d+1) saved (fun k hk => (hd k hk).trans (by omega)) name
    exact ((h1.mono (by rw [needLvalue]; omega)).append (h2.mono (by rw [needLvalue]; omega))).append
      (.none fun k => ite_stack _ k (by simp [Item.op]))
  | .var _ | .verb _ _ _ | .asgn _ _ | .call _ _ | .binary _ _ _ | .and _ _ | .or _ _
  | .unary _ _ | .list _ | .cond _ _ _ | .catch _ _ _ | .length | .scatter _ =>
    exact .none (by simp [itemsLvalue])
theorem itemsDefaults_stack (d : ℕ) (saved : Option ℕ) (hd : ∀ k ∈ saved, k ≤ d)
    (sc : Scatter) : StackWithin (d+needDefaults sc) (itemsDefaults d saved sc) := by
  match sc with
  | .nil => exact .none (by simp [itemsDefaults])
  | .cons .optional id (.some expr) next =>
    have h1 := itemsExpr_stack d saved hd expr
    have h2 := itemsDefaults_stack d saved hd next
    exact (((h1.mono (by rw [needDefaults]; omega)).append (.none (varOpItems_stack true id))).append
      (.none (by simp [Item.op]))).append (h2.mono (by rw [needDefaults]; omega))
  | .cons .optional _ .none next | .cons .required _ .none next | .cons .rest _ .none next
  | .cons .required _ (.some _) next | .cons .rest _ (.some _) next =>
    exact itemsDefaults_stack d saved hd next
theorem itemsDefault_stack (d : ℕ) (saved : Option ℕ) (hd : ∀ k ∈ saved, k ≤ d) (e : OptExpr) :
    StackWithin (d+needDefault e) (itemsDefault d saved e) := by
  match e with
  | .none => exact .none (by simp [itemsDefault, Item.op])
  | .some expr =>
    have hp : StackWithin (d+needExpr expr) [.op .pop] := .none (by simp [Item.op])
    exact hp.append (itemsExpr_stack d saved hd expr)
end

/-- The depths that the loops around a statement come back to. -/
def FramesWithin (d : ℕ) (frames : List Frame) : Prop :=
  ∀ f ∈ frames, f.topStack ≤ d ∧ f.bottomStack ≤ d

theorem FramesWithin.mono {d d' : ℕ} {frames : List Frame} (h : FramesWithin d frames)
    (hd : d ≤ d') : FramesWithin d' frames :=
  fun f hf => ⟨(h f hf).1.trans hd, (h f hf).2.trans hd⟩

theorem FramesWithin.cons {d : ℕ} {frames : List Frame} (h : FramesWithin d frames) (f : Frame)
    (ht : f.topStack ≤ d) (hb : f.bottomStack ≤ d) : FramesWithin d (f::frames) := by
  intro f' hf'
  rcases List.mem_cons.mp hf' with rfl | hf'
  · exact ⟨ht, hb⟩
  · exact h f' hf'

theorem findFrame_mem {exit : Option ℕ} {frames : List Frame} {f : Frame}
    (h : findFrame exit frames = some f) : f ∈ frames := by
  cases exit with
  | none => exact List.mem_of_head? h
  | some id => exact List.mem_of_find?_eq_some h

theorem exitItems_stack {d : ℕ} {frames : List Frame} (exit : Option ℕ) (g : Frame → ℕ)
    (hg : ∀ f ∈ frames, g f ≤ d) :
    StackWithin d (exitItems exit++[.stack (((findFrame exit frames).map g).getD 0), .label]) := by
  refine .append (.none ?_) fun k hk => ?_
  · cases exit <;> simp [exitItems, extendedItems, Item.op]
  · simp only [List.mem_cons, Item.stack.injEq, reduceCtorEq, List.not_mem_nil, or_false] at hk
    cases hf : findFrame exit frames with
    | none => simp [hk, hf]
    | some f =>
      have := hg f (findFrame_mem hf)
      simp only [hf, Option.map_some, Option.getD_some] at hk
      omega

theorem handlerItems_stack (d : ℕ) (arms : ExceptArms) :
    StackWithin (d+needHandlers arms) (handlerItems d arms) := by
  match arms with
  | .nil => exact .none (by simp [handlerItems])
  | .cons id codes stmt next =>
    have h1 : StackWithin (d+needHandlers (.cons id codes stmt next))
        (codesOrItems codes (itemsArgList d none codes)) := by
      cases codes with
      | nil => exact .none (by simp [codesOrItems, Item.op])
      | cons kind expr next' =>
        exact (itemsArgList_stack d none (by simp) (.cons kind expr next')).mono
          (by rw [needHandlers]; omega)
    have h2 := handlerItems_stack (d+2) next
    exact ((h1.append (.none (by simp [extendedItems, Item.op]))).append (.none (by simp))).append
      (h2.mono (by rw [needHandlers]; omega))

mutual
theorem itemsStmt_stack (d : ℕ) (frames : List Frame) (hf : FramesWithin d frames) (st : Stmt) :
    StackWithin (d+needStmt st) (itemsStmt d frames st) := by
  match st with
  | .cond arms otherwise =>
    have h1 := itemsArms_stack d frames hf .if arms
    have h2 := itemsStmts_stack d frames hf otherwise
    exact (h1.mono (by rw [needStmt]; omega)).append (h2.mono (by rw [needStmt]; omega))
  | .list id expr body =>
    have h1 := itemsExpr_stack d none (by simp) expr
    have h2 := itemsStmts_stack (d+2) (⟨some id, d+2, d⟩::frames)
      ((hf.mono (by omega)).cons _ le_rfl (by simp)) body
    exact (((h1.mono (by rw [needStmt]; omega)).append (.none (by simp [Item.op]))).append
      (h2.mono (by rw [needStmt]; omega))).append (.none (by simp [Item.op]))
  | .range id lo hi body =>
    have h1 := itemsExpr_stack d none (by simp) lo
    have h2 := itemsExpr_stack (d+1) none (by simp) hi
    have h3 := itemsStmts_stack (d+2) (⟨some id, d+2, d⟩::frames)
      ((hf.mono (by omega)).cons _ le_rfl (by simp)) body
    exact ((((h1.mono (by rw [needStmt]; omega)).append (h2.mono (by rw [needStmt]; omega))).append
      (.none (by simp [Item.op]))).append (h3.mono (by rw [needStmt]; omega))).append
      (.none (by simp [Item.op]))
  | .while id condition body =>
    have h1 := itemsExpr_stack d none (by simp) condition
    have h2 := itemsStmts_stack d (⟨id, d, d⟩::frames) (hf.cons _ le_rfl le_rfl) body
    have ht : ∀ k, Item.stack k ∉ loopTestItems id := by
      cases id <;> simp [loopTestItems, extendedItems, Item.op]
    exact ((((h1.mono (by rw [needStmt]; omega)).append (.none ht)).append
      (.none (by simp))).append (h2.mono (by rw [needStmt]; omega))).append
      (.none (by simp [Item.op]))
  | .fork id time body =>
    have h1 := itemsExpr_stack d none (by simp) time
    have hi : ∀ k, Item.stack k ∉ forkIdItems id := by
      cases id <;> simp [forkIdItems]
    have hb : ∀ k, Item.stack k ∉ (itemsStmts 0 [] body++[Item.op .done]).map Item.forked := by
      intro k hk
      obtain ⟨i, -, hi⟩ := List.mem_map.mp hk
      cases hi
    exact ((((h1.mono (by rw [needStmt])).append (.none (by simp [Item.op]))).append
      (.none hb)).append (.none (by simp))).append (.none hi)
  | .expr expr | .return (some expr) =>
    exact (itemsExpr_stack d none (by simp) expr).append (.none (by simp [Item.op]))
  | .return none => exact .none (by simp [itemsStmt, Item.op])
  | .tryExcept body excepts =>
    have h1 := handlerItems_stack d excepts
    have h2 := itemsStmts_stack (d+2*excepts.length+1) frames (hf.mono (by omega)) body
    have h3 := itemsExcepts_stack d frames hf excepts
    exact ((((((h1.mono (by rw [needStmt]; omega)).append
      (.none (by simp [extendedItems, Item.op]))).append (.none (by simp))).append
      (h2.mono (by rw [needStmt]; omega))).append (.none (by simp [extendedItems, Item.op]))).append
      (.none (by simp))).append (h3.mono (by rw [needStmt]; omega))
  | .tryFinally body handler =>
    have h1 := itemsStmts_stack (d+1) frames (hf.mono (by omega)) body
    have h2 := itemsStmts_stack (d+2) frames (hf.mono (by omega)) handler
    have h0 : StackWithin (d+needStmt (.tryFinally body handler)) (extendedItems .tryFinally) :=
      .none (by simp [extendedItems, Item.op])
    exact ((((h0.append (.none (by simp))).append (h1.mono (by rw [needStmt]; omega))).append
      (.none (by simp [extendedItems, Item.op]))).append (h2.mono (by rw [needStmt]; omega))).append
      (.none (by simp [extendedItems, Item.op]))
  | .break exit => exact exitItems_stack exit (·.bottomStack) fun f h => (hf f h).2
  | .continue exit => exact exitItems_stack exit (·.topStack) fun f h => (hf f h).1
theorem itemsStmts_stack (d : ℕ) (frames : List Frame) (hf : FramesWithin d frames)
    (ss : Stmts) : StackWithin (d+needStmts ss) (itemsStmts d frames ss) := by
  match ss with
  | .nil => exact .none (by simp [itemsStmts])
  | .cons stmt next =>
    have h1 := itemsStmt_stack d frames hf stmt
    have h2 := itemsStmts_stack d frames hf next
    exact (h1.mono (by rw [needStmts]; omega)).append (h2.mono (by rw [needStmts]; omega))
theorem itemsArms_stack (d : ℕ) (frames : List Frame) (hf : FramesWithin d frames) (o : Opcode)
    (arms : CondArms) : StackWithin (d+needArms arms) (itemsArms d frames o arms) := by
  match arms with
  | .nil => exact .none (by simp [itemsArms])
  | .cons condition stmt next =>
    have h1 := itemsExpr_stack d none (by simp) condition
    have h2 := itemsStmts_stack d frames hf stmt
    have h3 := itemsArms_stack d frames hf .eif next
    exact ((((h1.mono (by rw [needArms]; omega)).append (.none (by simp [Item.op]))).append
      (h2.mono (by rw [needArms]; omega))).append (.none (by simp [Item.op]))).append
      (h3.mono (by rw [needArms]; omega))
theorem itemsExcepts_stack (d : ℕ) (frames : List Frame) (hf : FramesWithin d frames)
    (arms : ExceptArms) : StackWithin (d+needExcepts arms) (itemsExcepts d frames arms) := by
  match arms with
  | .nil => exact .none (by simp [itemsExcepts])
  | .cons id codes stmt next =>
    have hi : ∀ k, Item.stack k ∉ armIdItems id := by
      cases id with
      | none => simp [armIdItems]
      | some id => exact varOpItems_stack true id
    have h0 : StackWithin (d+needExcepts (.cons id codes stmt next)) (armIdItems id) := .none hi
    have h1 := itemsStmts_stack d frames hf stmt
    have h2 := itemsExcepts_stack d frames hf next
    refine (((h0.append (.none (by simp [Item.op]))).append
      (h1.mono (by rw [needExcepts]; omega))).append (.none ?_)).append
      (h2.mono (by rw [needExcepts]; omega))
    cases next <;> simp [Item.op]
end

end LambdaMoo.CodeGen
