import LambdaMoo.Standing

/-!
# The generator does not panic

Generating an expression that is in scope always ends: none of the panics of
`generate_expr` and `push_lvalue` is reached.
-/

set_option autoImplicit false

namespace LambdaMoo.CodeGen

theorem bind_total {α β : Type} {x : Result α} {f : α → Result β} (hx : ∃ a, x = .ok a)
    (hf : ∀ a, x = .ok a → ∃ b, f a = .ok b) : ∃ b, (x >>= f) = .ok b := by
  obtain ⟨a, ha⟩ := hx
  obtain ⟨b, hb⟩ := hf a ha
  exact ⟨b, bind_ok.mpr ⟨a, ha, hb⟩⟩

theorem storeIndexBase_total (lhs : Expr) (hl : lhs.isIndexBase = true) (s : State) :
    ∃ s', storeLvalue lhs s = .ok s' := by
  match lhs with
  | .index base index =>
    rw [storeLvalue]
    exact storeIndexBase_total base hl _
  | .id slot => exact ⟨_, rfl⟩
  | .prop obj name => exact ⟨_, rfl⟩
  | .range _ _ _ | .var _ | .verb _ _ _ | .asgn _ _ | .call _ _ | .binary _ _ _ | .and _ _ | .or _ _
  | .unary _ _ | .list _ | .cond _ _ _ | .catch _ _ _ | .length | .scatter _ =>
    simp [Expr.isIndexBase] at hl

theorem storeRhs_total (lhs : Expr) (hl : lhs.isLvalue = true) (s : State) :
    ∃ s', storeRhs lhs s = .ok s' := by
  refine bind_total ?_ fun _ _ => ⟨_, rfl⟩
  cases lhs with
  | range base lo hi =>
    rw [storeLvalue]
    exact storeIndexBase_total base hl _
  | _ => exact storeIndexBase_total _ hl _

theorem isLvalue_of_indexBase {e : Expr} (h : e.isIndexBase = true) : e.isLvalue = true := by
  cases e with
  | range => simp [Expr.isIndexBase] at h
  | _ => exact h

mutual
theorem generateExpr_total (e : Expr) {n : ℕ} {dollar : Bool} (he : e.scoped n dollar = true)
    {s : State} {a : Account} {d m : ℕ} {saved : Option ℕ} {frames : List Frame}
    (t : Standing s a d m saved frames) (hd : dollar = true → saved.isSome) :
    ∃ s', generateExpr e s = .ok s' := by
  match e with
  | .var v => exact ⟨_, rfl⟩
  | .id slot => exact ⟨_, rfl⟩
  | .and lhs rhs =>
    simp only [Expr.scoped, Bool.and_eq_true] at he
    rw [generateExpr]
    refine bind_total (generateExpr_total lhs he.1 t hd) fun s1 h1 => ?_
    have t1 := generateExpr_stands lhs he.1 t h1
    exact bind_total (generateExpr_total rhs he.2 (((t1.op .and).label none).pop 1 d rfl) hd)
      fun _ _ => ⟨_, rfl⟩
  | .or lhs rhs =>
    simp only [Expr.scoped, Bool.and_eq_true] at he
    rw [generateExpr]
    refine bind_total (generateExpr_total lhs he.1 t hd) fun s1 h1 => ?_
    have t1 := generateExpr_stands lhs he.1 t h1
    exact bind_total (generateExpr_total rhs he.2 (((t1.op .or).label none).pop 1 d rfl) hd)
      fun _ _ => ⟨_, rfl⟩
  | .unary op arg =>
    simp only [Expr.scoped] at he
    rw [generateExpr]
    exact bind_total (generateExpr_total arg he t hd) fun _ _ => ⟨_, rfl⟩
  | .binary op lhs rhs =>
    simp only [Expr.scoped, Bool.and_eq_true] at he
    rw [generateExpr]
    refine bind_total (generateExpr_total lhs he.1 t hd) fun s1 h1 => ?_
    exact bind_total (generateExpr_total rhs he.2 (generateExpr_stands lhs he.1 t h1) hd)
      fun _ _ => ⟨_, rfl⟩
  | .prop obj name =>
    simp only [Expr.scoped, Bool.and_eq_true] at he
    rw [generateExpr]
    refine bind_total (generateExpr_total obj he.1 t hd) fun s1 h1 => ?_
    exact bind_total (generateExpr_total name he.2 (generateExpr_stands obj he.1 t h1) hd)
      fun _ _ => ⟨_, rfl⟩
  | .index base index =>
    simp only [Expr.scoped, Bool.and_eq_true] at he
    rw [generateExpr]
    refine bind_total (generateExpr_total base he.1 t hd) fun s1 h1 => ?_
    exact bind_total (generateExpr_total index he.2 (generateExpr_stands base he.1 t h1).save
      fun _ => rfl) fun _ _ => ⟨_, rfl⟩
  | .range base lo hi =>
    simp only [Expr.scoped, Bool.and_eq_true] at he
    rw [generateExpr]
    refine bind_total (generateExpr_total base he.1.1 t hd) fun s1 h1 => ?_
    have t1 := (generateExpr_stands base he.1.1 t h1).save
    refine bind_total (generateExpr_total lo he.1.2 t1 fun _ => rfl) fun s2 h2 => ?_
    exact bind_total (generateExpr_total hi he.2 (generateExpr_stands lo he.1.2 t1 h2)
      fun _ => rfl) fun _ _ => ⟨_, rfl⟩
  | .length =>
    obtain ⟨index, hi⟩ := Option.isSome_iff_exists.mp (hd he)
    rw [generateExpr, t.savedStack, hi]
    exact ⟨_, rfl⟩
  | .list args => exact generateArgList_total args he t hd
  | .call func args =>
    rw [Expr.scoped] at he
    rw [generateExpr]
    exact bind_total (generateArgList_total args he t hd) fun _ _ => ⟨_, rfl⟩
  | .verb obj name args =>
    simp only [Expr.scoped, Bool.and_eq_true] at he
    rw [generateExpr]
    refine bind_total (generateExpr_total obj he.1.1 t hd) fun s1 h1 => ?_
    have t1 := generateExpr_stands obj he.1.1 t h1
    refine bind_total (generateExpr_total name he.1.2 t1 hd) fun s2 h2 => ?_
    exact bind_total (generateArgList_total args he.2 (generateExpr_stands name he.1.2 t1 h2) hd)
      fun _ _ => ⟨_, rfl⟩
  | .cond condition consequent alternate =>
    simp only [Expr.scoped, Bool.and_eq_true] at he
    rw [generateExpr]
    refine bind_total (generateExpr_total condition he.1.1 t hd) fun s1 h1 => ?_
    have t1 := ((generateExpr_stands condition he.1.1 t h1).op .ifQues).label none
    refine bind_total (generateExpr_total consequent he.1.2 (t1.pop 1 d rfl) hd) fun s2 h2 => ?_
    have t2 := ((generateExpr_stands consequent he.1.2 (t1.pop 1 d rfl) h2).op .jump).label none
    exact bind_total (generateExpr_total alternate he.2 ((t2.pop 1 d rfl).define _) hd)
      fun _ _ => ⟨_, rfl⟩
  | .asgn (.scatter sc) rhs =>
    simp only [Expr.scoped, Bool.and_eq_true] at he
    rw [generateExpr]
    refine bind_total (generateExpr_total rhs he.2 t hd) fun s1 h1 => ?_
    have t1 := ((((generateExpr_stands rhs he.2 t h1).extended .scatter).byte sc.length).byte
      (Scatter.nreq sc)).byte (Scatter.rest sc)
    exact bind_total (generateDefaults_total sc he.1 (scatterTargets_length sc _)
      ((scatterTargets_standing sc t1).label none) hd) fun _ _ => ⟨_, rfl⟩
  | .asgn (.id _) rhs | .asgn (.prop _ _) rhs | .asgn (.index _ _) rhs | .asgn (.range _ _ _) rhs =>
    rw [Expr.scoped_asgn _ rhs (by simp), Bool.and_eq_true, Bool.and_eq_true] at he
    rw [generateExpr_asgn _ rhs (by simp)]
    refine bind_total (pushLvalue_total _ false he.1.1 he.1.2 t hd) fun s1 h1 => ?_
    refine bind_total (generateExpr_total rhs he.2 (pushLvalue_stands _ false he.1.2 t h1) hd)
      fun s2 h2 => ?_
    exact storeRhs_total _ he.1.1 s2
  | .asgn (.var _) _ | .asgn (.verb _ _ _) _ | .asgn (.asgn _ _) _ | .asgn (.call _ _) _
  | .asgn (.binary _ _ _) _ | .asgn (.and _ _) _ | .asgn (.or _ _) _ | .asgn (.unary _ _) _
  | .asgn (.list _) _ | .asgn (.cond _ _ _) _ | .asgn (.catch _ _ _) _ | .asgn .length _ =>
    simp [Expr.scoped, Expr.isLvalue, Expr.isIndexBase] at he
  | .catch body codes default =>
    simp only [Expr.scoped, Bool.and_eq_true] at he
    rw [generateExpr]
    have hcodes : ∃ s1 a1 m1, codesOr codes (generateArgList codes) s = .ok s1 ∧
        Standing s1 a1 (d+1) m1 saved frames := by
      match codes with
      | .nil => exact ⟨_, _, _, rfl, (t.op _).push 1⟩
      | .cons kind expr next =>
        obtain ⟨s1, h1⟩ := generateArgList_total (.cons kind expr next) he.1.2 t hd
        exact ⟨s1, _, _, h1, generateArgList_stands _ he.1.2 t h1⟩
    obtain ⟨s1, a1, m1, h1, t1⟩ := hcodes
    refine bind_total ⟨s1, h1⟩ fun s1' h1' => ?_
    obtain rfl : s1 = s1' := by rw [h1, Except.ok.injEq] at h1'; exact h1'
    have t1' := ((((t1.extended .pushLabel).label none).push 1).extended .catch).push 1
    refine bind_total (generateExpr_total body he.1.1 t1' hd) fun s2 h2 => ?_
    have t2 := generateExpr_stands body he.1.1 t1' h2
    exact bind_total (generateDefault_total default he.2
      ((((t2.extended .endCatch).label none).pop 3 (d+1) rfl).define _) hd) fun _ _ => ⟨_, rfl⟩
  | .scatter _ => simp [Expr.scoped] at he
theorem generateArgList_total (args : ArgList) {n : ℕ} {dollar : Bool}
    (he : args.scoped n dollar = true) {s : State} {a : Account} {d m : ℕ} {saved : Option ℕ}
    {frames : List Frame}
    (t : Standing s a d m saved frames) (hd : dollar = true → saved.isSome) :
    ∃ s', generateArgList args s = .ok s' := by
  match args with
  | .nil => exact ⟨_, rfl⟩
  | .cons kind expr next =>
    simp only [ArgList.scoped, Bool.and_eq_true] at he
    rw [generateArgList]
    refine bind_total (generateExpr_total expr he.1 t hd) fun s1 h1 => ?_
    exact generateArgs_total next he.2 ((generateExpr_stands expr he.1 t h1).op _) hd
theorem generateArgs_total (args : ArgList) {n : ℕ} {dollar : Bool}
    (he : args.scoped n dollar = true) {s : State} {a : Account} {d m : ℕ} {saved : Option ℕ}
    {frames : List Frame}
    (t : Standing s a (d+1) m saved frames) (hd : dollar = true → saved.isSome) :
    ∃ s', generateArgs args s = .ok s' := by
  match args with
  | .nil => exact ⟨_, rfl⟩
  | .cons kind expr next =>
    simp only [ArgList.scoped, Bool.and_eq_true] at he
    rw [generateArgs]
    refine bind_total (generateExpr_total expr he.1 t hd) fun s1 h1 => ?_
    exact generateArgs_total next he.2
      (((generateExpr_stands expr he.1 t h1).op _).pop 1 (d+1) rfl) hd
theorem pushLvalue_total (e : Expr) (above : Bool) {n : ℕ} {dollar : Bool} (hl : e.isLvalue = true)
    (he : e.scoped n dollar = true) {s : State} {a : Account} {d m : ℕ} {saved : Option ℕ}
    {frames : List Frame} (t : Standing s a d m saved frames)
    (hd : dollar = true → saved.isSome) : ∃ s', pushLvalue e above s = .ok s' := by
  match e with
  | .range base lo hi =>
    simp only [Expr.scoped, Bool.and_eq_true] at he
    rw [pushLvalue]
    refine bind_total (pushLvalue_total base true (isLvalue_of_indexBase hl) he.1.1 t hd)
      fun s1 h1 => ?_
    have t1 := (pushLvalue_stands base true he.1.1 t h1).save
    refine bind_total (generateExpr_total lo he.1.2 t1 fun _ => rfl) fun s2 h2 => ?_
    exact bind_total (generateExpr_total hi he.2 (generateExpr_stands lo he.1.2 t1 h2)
      fun _ => rfl) fun _ _ => ⟨_, rfl⟩
  | .index base index =>
    simp only [Expr.scoped, Bool.and_eq_true] at he
    rw [pushLvalue]
    refine bind_total (pushLvalue_total base true (isLvalue_of_indexBase hl) he.1 t hd)
      fun s1 h1 => ?_
    exact bind_total (generateExpr_total index he.2 (pushLvalue_stands base true he.1 t h1).save
      fun _ => rfl) fun _ _ => ⟨_, rfl⟩
  | .id slot => exact ⟨_, rfl⟩
  | .prop obj name =>
    simp only [Expr.scoped, Bool.and_eq_true] at he
    rw [pushLvalue]
    refine bind_total (generateExpr_total obj he.1 t hd) fun s1 h1 => ?_
    exact bind_total (generateExpr_total name he.2 (generateExpr_stands obj he.1 t h1) hd)
      fun _ _ => ⟨_, rfl⟩
  | .var _ | .verb _ _ _ | .asgn _ _ | .call _ _ | .binary _ _ _ | .and _ _ | .or _ _
  | .unary _ _ | .list _ | .cond _ _ _ | .catch _ _ _ | .length | .scatter _ =>
    simp [Expr.isLvalue, Expr.isIndexBase] at hl
theorem generateDefault_total (e : OptExpr) {n : ℕ} {dollar : Bool} (he : e.scoped n dollar = true)
    {s : State} {a : Account} {d m : ℕ} {saved : Option ℕ} {frames : List Frame}
    (t : Standing s a (d+1) m saved frames) (hd : dollar = true → saved.isSome) :
    ∃ s', generateDefault e s = .ok s' := by
  match e with
  | .none => exact ⟨_, rfl⟩
  | .some expr =>
    rw [OptExpr.scoped] at he
    rw [generateDefault]
    exact generateExpr_total expr he ((t.op .pop).pop 1 d rfl) hd
theorem generateDefaults_total (sc : Scatter) {n : ℕ} {dollar : Bool}
    (he : sc.scoped n dollar = true) {labels : List ℕ} (hlen : labels.length = Scatter.defaults sc)
    {s : State} {a : Account} {d m : ℕ} {saved : Option ℕ} {frames : List Frame} (t : Standing s a d m saved frames)
    (hd : dollar = true → saved.isSome) : ∃ s', generateDefaults sc labels s = .ok s' := by
  match sc, labels with
  | .nil, _ => exact ⟨_, rfl⟩
  | .cons .optional id (.some expr) next, label::labels =>
    simp only [Scatter.scoped, Bool.and_eq_true, OptExpr.scoped] at he
    rw [generateDefaults]
    refine bind_total (generateExpr_total expr he.1.2 (t.define _) hd) fun s1 h1 => ?_
    have t1 := generateExpr_stands expr he.1.2 (t.define _) h1
    exact generateDefaults_total next he.2 (Nat.succ.inj hlen)
      (((t1.varOp true id).op .pop).pop 1 d rfl) hd
  | .cons .optional id (.some expr) next, [] => simp [Scatter.defaults] at hlen
  | .cons .optional id .none next, _ | .cons .required id _ next, _ | .cons .rest id _ next, _ =>
    simp only [Scatter.scoped, Bool.and_eq_true] at he
    simp only [generateDefaults]
    exact generateDefaults_total next he.2 hlen t hd
end
end LambdaMoo.CodeGen
