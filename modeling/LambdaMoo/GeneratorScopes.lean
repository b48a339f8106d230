import LambdaMoo.StandingStmt
import LambdaMoo.Total

/-!
# Exits and `$` in the generator

`SitedExpr` and its companions follow the calls of the generator on a tree
from one state to the next. They say of every `$` that the saved stack holds
the position of the value that the innermost index or range around it indexes,
and of every `break` and `continue` that the loop stack has the loops around
it in its fork body, and that the loop found there is the innermost one or the
innermost one of the name given.
-/

set_option autoImplicit false

namespace LambdaMoo.CodeGen

def After {α : Type} (r : Result α) (P : α → Prop) : Prop := ∀ a, r = .ok a → P a

/-- The position of the value that has just been pushed. -/
def Top (s : State) (p : ℕ) : Prop := s.curStack = p+1

mutual
/-- `base` is the position of the value that is indexed where the expression stands. -/
def SitedExpr : Expr → Option ℕ → State → Prop
  | .var _, _, _ | .id _, _, _ | .scatter _, _, _ => True
  | .and lhs rhs, base, s => SitedExpr lhs base s ∧ After (generateExpr lhs s) fun s =>
    SitedExpr rhs base (popStack 1 (addLabel (emitOp .and s)).2)
  | .or lhs rhs, base, s => SitedExpr lhs base s ∧ After (generateExpr lhs s) fun s =>
    SitedExpr rhs base (popStack 1 (addLabel (emitOp .or s)).2)
  | .unary _ arg, base, s => SitedExpr arg base s
  | .binary _ lhs rhs, base, s => SitedExpr lhs base s ∧ After (generateExpr lhs s) fun s =>
    SitedExpr rhs base s
  | .prop obj name, base, s => SitedExpr obj base s ∧ After (generateExpr obj s) fun s =>
    SitedExpr name base s
  | .index e index, base, s => SitedExpr e base s ∧ After (generateExpr e s) fun s =>
    ∃ p, Top s p ∧ SitedExpr index (some p) (saveStackTop s).2
  | .range e lo hi, base, s => SitedExpr e base s ∧ After (generateExpr e s) fun s =>
    ∃ p, Top s p ∧ SitedExpr lo (some p) (saveStackTop s).2 ∧
      After (generateExpr lo (saveStackTop s).2) fun s => SitedExpr hi (some p) s
  | .length, base, s => ∃ p, base = some p ∧ s.savedStack = some p
  | .list args, base, s => SitedArgList args base s
  | .call _ args, base, s => SitedArgList args base s
  | .verb obj name args, base, s => SitedExpr obj base s ∧ After (generateExpr obj s) fun s =>
    SitedExpr name base s ∧ After (generateExpr name s) fun s => SitedArgList args base s
  | .cond condition consequent alternate, base, s => SitedExpr condition base s ∧
    After (generateExpr condition s) fun s =>
      let (elseLabel, s) := addLabel (emitOp .ifQues s)
      SitedExpr consequent base (popStack 1 s) ∧
      After (generateExpr consequent (popStack 1 s)) fun s =>
        SitedExpr alternate base
          (defineLabel (some elseLabel) (popStack 1 (addLabel (emitOp .jump s)).2))
  | .asgn (.scatter sc) rhs, base, s => SitedExpr rhs base s ∧
    After (generateExpr rhs s) fun s =>
      let s := emitExtendedByte .scatter s
      let s := emitByte (Scatter.rest sc) (emitByte (Scatter.nreq sc) (emitByte sc.length s))
      let (labels, s) := scatterTargets sc s
      SitedDefaults sc labels base (addLabel s).2
  | .asgn lhs rhs, base, s => SitedLvalue lhs false base s ∧
    After (pushLvalue lhs false s) fun s => SitedExpr rhs base s
  | .catch body codes default, base, s => SitedArgList codes base s ∧
    After (codesOr codes (generateArgList codes) s) fun s =>
      let (handlerLabel, s) := addLabel (emitExtendedByte .pushLabel s)
      let s := pushStack 1 (emitExtendedByte .catch (pushStack 1 s))
      SitedExpr body base s ∧ After (generateExpr body s) fun s =>
        SitedDefault default base
          (defineLabel (some handlerLabel) (popStack 3 (addLabel (emitExtendedByte .endCatch s)).2))
termination_by structural e => e
def SitedArgList : ArgList → Option ℕ → State → Prop
  | .nil, _, _ => True
  | .cons kind expr next, base, s => SitedExpr expr base s ∧ After (generateExpr expr s) fun s =>
    SitedArgs next base (emitOp (ArgKind.firstOp kind) s)
termination_by structural a => a
def SitedArgs : ArgList → Option ℕ → State → Prop
  | .nil, _, _ => True
  | .cons kind expr next, base, s => SitedExpr expr base s ∧ After (generateExpr expr s) fun s =>
    SitedArgs next base (popStack 1 (emitOp (ArgKind.nextOp kind) s))
termination_by structural a => a
def SitedLvalue : Expr → Bool → Option ℕ → State → Prop
  | .range e lo hi, _, base, s => SitedLvalue e true base s ∧ After (pushLvalue e true s) fun s =>
    ∃ p, Top s p ∧ SitedExpr lo (some p) (saveStackTop s).2 ∧
      After (generateExpr lo (saveStackTop s).2) fun s => SitedExpr hi (some p) s
  | .index e index, _, base, s => SitedLvalue e true base s ∧ After (pushLvalue e true s) fun s =>
    ∃ p, Top s p ∧ SitedExpr index (some p) (saveStackTop s).2
  | .prop obj name, _, base, s => SitedExpr obj base s ∧ After (generateExpr obj s) fun s =>
    SitedExpr name base s
  | _, _, _, _ => True
termination_by structural e => e
def SitedDefaults : Scatter → List ℕ → Option ℕ → State → Prop
  | .nil, _, _, _ => True
  | .cons .optional id (.some expr) next, label::labels, base, s =>
    SitedExpr expr base (defineLabel (some label) s) ∧
    After (generateExpr expr (defineLabel (some label) s)) fun s =>
      SitedDefaults next labels base (popStack 1 (emitOp .pop (emitVarOp true id s)))
  | .cons _ _ _ next, labels, base, s => SitedDefaults next labels base s
termination_by structural sc => sc
def SitedDefault : OptExpr → Option ℕ → State → Prop
  | .some expr, base, s => SitedExpr expr base (popStack 1 (emitOp .pop s))
  | .none, _, _ => True
termination_by structural e => e
end

theorem Standing.top {s : State} {a : Account} {p m : ℕ} {saved : Option ℕ} {frames : List Frame}
    (t : Standing s a (p+1) m saved frames) :
    Top s p ∧ Standing (saveStackTop s).2 a (p+1) m (some p) frames := ⟨t.cur, t.save⟩

/-- The value of an indexed left side lies on top of what stores into it need. -/
theorem Standing.lvalueTop {s : State} {a : Account} {d m : ℕ} {saved : Option ℕ}
    {frames : List Frame} {e : Expr} (hl : e.isIndexBase = true)
    (t : Standing s a (d+lvalueDepth e true) m saved frames) :
    Top s (d+lvalueDepth e false) ∧
      Standing (saveStackTop s).2 a (d+lvalueDepth e true) m (some (d+lvalueDepth e false))
        frames := by
  rw [lvalueDepth_above e hl, ← add_assoc] at t ⊢
  exact t.top

theorem codesOr_stands {codes : ArgList} {n : ℕ} {dollar : Bool}
    (he : codes.scoped n dollar = true) {s s' : State} {a : Account} {d m : ℕ}
    {saved : Option ℕ} {frames : List Frame} (t : Standing s a d m saved frames)
    (h : codesOr codes (generateArgList codes) s = .ok s') :
    ∃ a' m', Standing s' a' (d+1) m' saved frames := by
  cases codes with
  | nil =>
    rw [codesOr, Except.ok.injEq] at h
    subst h
    exact ⟨_, _, (t.op _).push 1⟩
  | cons kind expr next => exact ⟨_, _, generateArgList_stands _ he t h⟩

mutual
theorem sitedExpr (e : Expr) {n : ℕ} {dollar : Bool} (he : e.scoped n dollar = true) {s : State}
    {a : Account} {d m : ℕ} {saved : Option ℕ} {frames : List Frame}
    (t : Standing s a d m saved frames) (hd : dollar = true → saved.isSome) :
    SitedExpr e saved s := by
  match e with
  | .var _ | .id _ => trivial
  | .and lhs rhs =>
    simp only [Expr.scoped, Bool.and_eq_true] at he
    refine ⟨sitedExpr lhs he.1 t hd, fun s1 h1 => ?_⟩
    have t1 := generateExpr_stands lhs he.1 t h1
    exact sitedExpr rhs he.2 (((t1.op .and).label none).pop 1 d rfl) hd
  | .or lhs rhs =>
    simp only [Expr.scoped, Bool.and_eq_true] at he
    refine ⟨sitedExpr lhs he.1 t hd, fun s1 h1 => ?_⟩
    have t1 := generateExpr_stands lhs he.1 t h1
    exact sitedExpr rhs he.2 (((t1.op .or).label none).pop 1 d rfl) hd
  | .unary _ arg => exact sitedExpr arg he t hd
  | .binary _ lhs rhs =>
    simp only [Expr.scoped, Bool.and_eq_true] at he
    refine ⟨sitedExpr lhs he.1 t hd, fun s1 h1 => ?_⟩
    exact sitedExpr rhs he.2 (generateExpr_stands lhs he.1 t h1) hd
  | .prop obj name =>
    simp only [Expr.scoped, Bool.and_eq_true] at he
    refine ⟨sitedExpr obj he.1 t hd, fun s1 h1 => ?_⟩
    exact sitedExpr name he.2 (generateExpr_stands obj he.1 t h1) hd
  | .index base index =>
    simp only [Expr.scoped, Bool.and_eq_true] at he
    refine ⟨sitedExpr base he.1 t hd, fun s1 h1 => ?_⟩
    obtain ⟨htop, t1⟩ := (generateExpr_stands base he.1 t h1).top
    exact ⟨d, htop, sitedExpr index he.2 t1 fun _ => rfl⟩
  | .range base lo hi =>
    simp only [Expr.scoped, Bool.and_eq_true] at he
    refine ⟨sitedExpr base he.1.1 t hd, fun s1 h1 => ?_⟩
    obtain ⟨htop, t1⟩ := (generateExpr_stands base he.1.1 t h1).top
    refine ⟨d, htop, sitedExpr lo he.1.2 t1 fun _ => rfl, fun s2 h2 => ?_⟩
    exact sitedExpr hi he.2 (generateExpr_stands lo he.1.2 t1 h2) fun _ => rfl
  | .length =>
    obtain ⟨p, hp⟩ := Option.isSome_iff_exists.mp (hd he)
    exact ⟨p, hp, t.savedStack.trans hp⟩
  | .list args | .call _ args => exact sitedArgList args he t hd
  | .verb obj name args =>
    simp only [Expr.scoped, Bool.and_eq_true] at he
    refine ⟨sitedExpr obj he.1.1 t hd, fun s1 h1 => ?_⟩
    have t1 := generateExpr_stands obj he.1.1 t h1
    refine ⟨sitedExpr name he.1.2 t1 hd, fun s2 h2 => ?_⟩
    exact sitedArgList args he.2 (generateExpr_stands name he.1.2 t1 h2) hd
  | .cond condition consequent alternate =>
    simp only [Expr.scoped, Bool.and_eq_true] at he
    refine ⟨sitedExpr condition he.1.1 t hd, fun s1 h1 => ?_⟩
    have t1 := ((generateExpr_stands condition he.1.1 t h1).op .ifQues).label none
    refine ⟨sitedExpr consequent he.1.2 (t1.pop 1 d rfl) hd, fun s2 h2 => ?_⟩
    have t2 := ((generateExpr_stands consequent he.1.2 (t1.pop 1 d rfl) h2).op .jump).label none
    exact sitedExpr alternate he.2 ((t2.pop 1 d rfl).define _) hd
  | .asgn (.scatter sc) rhs =>
    simp only [Expr.scoped, Bool.and_eq_true] at he
    refine ⟨sitedExpr rhs he.2 t hd, fun s1 h1 => ?_⟩
    have t1 := ((((generateExpr_stands rhs he.2 t h1).extended .scatter).byte sc.length).byte
      (Scatter.nreq sc)).byte (Scatter.rest sc)
    exact sitedDefaults sc he.1 (scatterTargets_length sc _)
      ((scatterTargets_standing sc t1).label none) hd
  | .asgn (.id _) rhs | .asgn (.prop _ _) rhs | .asgn (.index _ _) rhs | .asgn (.range _ _ _) rhs =>
    rw [Expr.scoped_asgn _ rhs (by simp), Bool.and_eq_true, Bool.and_eq_true] at he
    refine ⟨sitedLvalue _ false he.1.1 he.1.2 t hd, fun s1 h1 => ?_⟩
    exact sitedExpr rhs he.2 (pushLvalue_stands _ false he.1.2 t h1) hd
  | .asgn (.var _) _ | .asgn (.verb _ _ _) _ | .asgn (.asgn _ _) _ | .asgn (.call _ _) _
  | .asgn (.binary _ _ _) _ | .asgn (.and _ _) _ | .asgn (.or _ _) _ | .asgn (.unary _ _) _
  | .asgn (.list _) _ | .asgn (.cond _ _ _) _ | .asgn (.catch _ _ _) _ | .asgn .length _ =>
    simp [Expr.scoped, Expr.isLvalue, Expr.isIndexBase] at he
  | .catch body codes default =>
    simp only [Expr.scoped, Bool.and_eq_true] at he
    refine ⟨sitedArgList codes he.1.2 t hd, fun s1 h1 => ?_⟩
    obtain ⟨a1, m1, t1⟩ := codesOr_stands he.1.2 t h1
    have t1' := ((((t1.extended .pushLabel).label none).push 1).extended .catch).push 1
    refine ⟨sitedExpr body he.1.1 t1' hd, fun s2 h2 => ?_⟩
    have t2 := (generateExpr_stands body he.1.1 t1' h2).extended .endCatch
    exact sitedDefault default he.2 (((t2.label none).pop 3 (d+1) rfl).define _) hd
  | .scatter _ => simp [Expr.scoped] at he
theorem sitedArgList (args : ArgList) {n : ℕ} {dollar : Bool} (he : args.scoped n dollar = true)
    {s : State} {a : Account} {d m : ℕ} {saved : Option ℕ} {frames : List Frame}
    (t : Standing s a d m saved frames) (hd : dollar = true → saved.isSome) :
    SitedArgList args saved s := by
  match args with
  | .nil => trivial
  | .cons kind expr next =>
    simp only [ArgList.scoped, Bool.and_eq_true] at he
    refine ⟨sitedExpr expr he.1 t hd, fun s1 h1 => ?_⟩
    exact sitedArgs next he.2 ((generateExpr_stands expr he.1 t h1).op _) hd
theorem sitedArgs (args : ArgList) {n : ℕ} {dollar : Bool} (he : args.scoped n dollar = true)
    {s : State} {a : Account} {d m : ℕ} {saved : Option ℕ} {frames : List Frame}
    (t : Standing s a (d+1) m saved frames) (hd : dollar = true → saved.isSome) :
    SitedArgs args saved s := by
  match args with
  | .nil => trivial
  | .cons kind expr next =>
    simp only [ArgList.scoped, Bool.and_eq_true] at he
    refine ⟨sitedExpr expr he.1 t hd, fun s1 h1 => ?_⟩
    exact sitedArgs next he.2 (((generateExpr_stands expr he.1 t h1).op _).pop 1 (d+1) rfl) hd
theorem sitedLvalue (e : Expr) (above : Bool) {n : ℕ} {dollar : Bool} (hl : e.isLvalue = true)
    (he : e.scoped n dollar = true) {s : State} {a : Account} {d m : ℕ} {saved : Option ℕ}
    {frames : List Frame} (t : Standing s a d m saved frames)
    (hd : dollar = true → saved.isSome) : SitedLvalue e above saved s := by
  match e with
  | .range base lo hi =>
    simp only [Expr.scoped, Bool.and_eq_true] at he
    refine ⟨sitedLvalue base true (isLvalue_of_indexBase hl) he.1.1 t hd, fun s1 h1 => ?_⟩
    obtain ⟨htop, t1⟩ := (pushLvalue_stands base true he.1.1 t h1).lvalueTop hl
    refine ⟨_, htop, sitedExpr lo he.1.2 t1 fun _ => rfl, fun s2 h2 => ?_⟩
    exact sitedExpr hi he.2 (generateExpr_stands lo he.1.2 t1 h2) fun _ => rfl
  | .index base index =>
    simp only [Expr.scoped, Bool.and_eq_true] at he
    refine ⟨sitedLvalue base true (isLvalue_of_indexBase hl) he.1 t hd, fun s1 h1 => ?_⟩
    obtain ⟨htop, t1⟩ := (pushLvalue_stands base true he.1 t h1).lvalueTop (e := base) hl
    exact ⟨_, htop, sitedExpr index he.2 t1 fun _ => rfl⟩
  | .id _ => trivial
  | .prop obj name =>
    simp only [Expr.scoped, Bool.and_eq_true] at he
    refine ⟨sitedExpr obj he.1 t hd, fun s1 h1 => ?_⟩
    exact sitedExpr name he.2 (generateExpr_stands obj he.1 t h1) hd
  | .var _ | .verb _ _ _ | .asgn _ _ | .call _ _ | .binary _ _ _ | .and _ _ | .or _ _
  | .unary _ _ | .list _ | .cond _ _ _ | .catch _ _ _ | .length | .scatter _ =>
    simp [Expr.isLvalue, Expr.isIndexBase] at hl
theorem sitedDefaults (sc : Scatter) {n : ℕ} {dollar : Bool} (he : sc.scoped n dollar = true)
    {labels : List ℕ} (hlen : labels.length = Scatter.defaults sc) {s : State} {a : Account}
    {d m : ℕ} {saved : Option ℕ} {frames : List Frame} (t : Standing s a d m saved frames)
    (hd : dollar = true → saved.isSome) : SitedDefaults sc labels saved s := by
  match sc, labels with
  | .nil, _ => trivial
  | .cons .optional id (.some expr) next, label::labels =>
    simp only [Scatter.scoped, Bool.and_eq_true, OptExpr.scoped] at he
    refine ⟨sitedExpr expr he.1.2 (t.define _) hd, fun s1 h1 => ?_⟩
    have t1 := generateExpr_stands expr he.1.2 (t.define _) h1
    exact sitedDefaults next he.2 (Nat.succ.inj hlen) (((t1.varOp true id).op .pop).pop 1 d rfl) hd
  | .cons .optional id (.some expr) next, [] => simp [Scatter.defaults] at hlen
  | .cons .optional id .none next, _ | .cons .required id _ next, _ | .cons .rest id _ next, _ =>
    simp only [Scatter.scoped, Bool.and_eq_true] at he
    simp only [SitedDefaults]
    exact sitedDefaults next he.2 hlen t hd
theorem sitedDefault (e : OptExpr) {n : ℕ} {dollar : Bool} (he : e.scoped n dollar = true)
    {s : State} {a : Account} {d m : ℕ} {saved : Option ℕ} {frames : List Frame}
    (t : Standing s a (d+1) m saved frames) (hd : dollar = true → saved.isSome) :
    SitedDefault e saved s := by
  match e with
  | .none => trivial
  | .some expr => exact sitedExpr expr he ((t.op .pop).pop 1 d rfl) hd
end

/-- The loop at position `i` is the one that an exit leaves. -/
def Innermost (exit : Option ℕ) (loops : List (Option ℕ)) (i : ℕ) : Prop :=
  match exit with
  | none => i = 0 ∧ loops ≠ []
  | some id => loops[i]? = some (some id) ∧ ∀ j < i, loops[j]? ≠ some (some id)

/-- The loop stack has the loops around, and the loop found is the one to leave. -/
def AtExit (exit : Option ℕ) (loops : List (Option ℕ)) (s : State) : Prop :=
  s.loops.map (·.id) = loops ∧ ∃ i, findLoop exit s.loops = .ok i ∧ Innermost exit loops i

def SitedHandlers : ExceptArms → State → Prop
  | .nil, _ => True
  | .cons _ codes _ next, s => SitedArgList codes none s ∧ After (generateCodes codes s) fun s =>
    SitedHandlers next (pushStack 1 (addLabel (emitExtendedByte .pushLabel s)).2)

mutual
/-- `loops` are the loops around the statement in its fork body, innermost first. -/
def SitedStmt : Stmt → List (Option ℕ) → State → Prop
  | .cond arms otherwise, loops, s => SitedArms arms .if none loops s ∧
    After (generateArms arms .if none s) fun r => SitedStmts otherwise loops r.2
  | .list id expr body, loops, s => SitedExpr expr none s ∧ After (generateExpr expr s) fun s =>
    let s := pushStack 1 (emitOp (optimNumToOpcode 1) s)
    let loopTop := captureLabel s
    let (endLabel, s) := addLabel (addVarRef id (emitOp .forList s))
    SitedStmts body (some id::loops)
      (enterLoop (some id) loopTop s.curStack (some endLabel) (s.curStack-2) s)
  | .range id lo hi body, loops, s => SitedExpr lo none s ∧ After (generateExpr lo s) fun s =>
    SitedExpr hi none s ∧ After (generateExpr hi s) fun s =>
      let loopTop := captureLabel s
      let (endLabel, s) := addLabel (addVarRef id (emitOp .forRange s))
      SitedStmts body (some id::loops)
        (enterLoop (some id) loopTop s.curStack (some endLabel) (s.curStack-2) s)
  | .while id condition body, loops, s => SitedExpr condition none s ∧
    After (generateExpr condition s) fun s' =>
      let (endLabel, s') := addLabel (emitLoopTest id s')
      let s' := popStack 1 s'
      SitedStmts body (id::loops)
        (enterLoop id (captureLabel s) s'.curStack (some endLabel) s'.curStack s')
  | .fork id time body, _, s => SitedExpr time none s ∧ After (generateExpr time s) fun s =>
    SitedStmts body [] (initState (emitOp (if id.isSome then .forkWithId else .fork) s).gstate)
  | .expr expr, _, s | .return (some expr), _, s => SitedExpr expr none s
  | .return none, _, _ => True
  | .tryExcept body excepts, loops, s => SitedHandlers excepts s ∧
    After (pushHandlers excepts s) fun r =>
      let s := pushStack 1 (emitByte excepts.length (emitExtendedByte .tryExcept r.2))
      SitedStmts body loops s ∧ After (generateStmts body s) fun s =>
        let (endLabel, s) := addLabel (emitExtendedByte .endExcept s)
        SitedExcepts excepts r.1 (some endLabel) loops (popStack (2*excepts.length+1) s)
  | .tryFinally body handler, loops, s =>
    let (handlerLabel, s) := addLabel (emitExtendedByte .tryFinally s)
    SitedStmts body loops (pushStack 1 s) ∧
    After (generateStmts body (pushStack 1 s)) fun s =>
      let s := popStack 1 (emitExtendedByte .endFinally s)
      SitedStmts handler loops (pushStack 2 (defineLabel (some handlerLabel) s))
  | .break exit, loops, s | .continue exit, loops, s => AtExit exit loops s
termination_by structural st => st
def SitedStmts : Stmts → List (Option ℕ) → State → Prop
  | .nil, _, _ => True
  | .cons stmt next, loops, s => SitedStmt stmt loops s ∧ After (generateStmt stmt s) fun s =>
    SitedStmts next loops s
termination_by structural ss => ss
def SitedArms : CondArms → Opcode → Option ℕ → List (Option ℕ) → State → Prop
  | .nil, _, _, _, _ => True
  | .cons condition stmt next, ifOp, endLabel, loops, s => SitedExpr condition none s ∧
    After (generateExpr condition s) fun s =>
      let (elseLabel, s) := addLabel (emitOp ifOp s)
      SitedStmts stmt loops (popStack 1 s) ∧ After (generateStmts stmt (popStack 1 s)) fun s =>
        let (endLabel, s) := addLinkedLabel endLabel (emitOp .jump s)
        SitedArms next .eif (some endLabel) loops (defineLabel (some elseLabel) s)
termination_by structural arms => arms
def SitedExcepts : ExceptArms → List ℕ → Option ℕ → List (Option ℕ) → State → Prop
  | .nil, _, _, _, _ => True
  | .cons id _ stmt next, labels, endLabel, loops, s =>
    let s := popStack 1 (emitOp .pop (emitArmId id (pushStack 1 (defineLabel labels.head? s))))
    SitedStmts stmt loops s ∧ After (generateStmts stmt s) fun s =>
      let (endLabel, s) := addLinkedLabel endLabel (emitOp .jump s)
      SitedExcepts next labels.tail (some endLabel) loops s
termination_by structural arms => arms
end

theorem findLoop_innermost {exit : Option ℕ} {loops : List Loop}
    (h : exitOk (loops.map (·.id)) exit = true) :
    ∃ i, findLoop exit loops = .ok i ∧ Innermost exit (loops.map (·.id)) i := by
  cases exit with
  | none =>
    cases loops with
    | nil => cases h
    | cons l ls => exact ⟨0, rfl, rfl, List.cons_ne_nil _ _⟩
  | some id =>
    rw [exitOk, List.contains_iff_mem, List.mem_map] at h
    obtain ⟨l, hl, hid⟩ := h
    have hsome : (loops.findIdx? (fun l => l.id == some id)).isSome = true := by
      rw [List.findIdx?_isSome, List.any_eq_true]
      exact ⟨l, hl, by rw [hid, beq_self_eq_true]⟩
    obtain ⟨i, hi⟩ := Option.isSome_iff_exists.mp hsome
    obtain ⟨hlt, hat, hbefore⟩ := List.findIdx?_eq_some_iff_getElem.mp hi
    refine ⟨i, by rw [findLoop, hi], ?_, fun j hj => ?_⟩
    · rw [List.getElem?_map, List.getElem?_eq_getElem hlt, Option.map_some, eq_of_beq hat]
    · have hne := hbefore j hj
      rw [List.getElem?_map, List.getElem?_eq_getElem (hj.trans hlt), Option.map_some, ne_eq,
        Option.some.injEq]
      simpa using hne

theorem Standing.atExit {s : State} {a : Account} {d m : ℕ} {frames : List Frame}
    (t : Standing s a d m none frames) {exit : Option ℕ}
    (h : exitOk (frames.map (·.id)) exit = true) : AtExit exit (frames.map (·.id)) s := by
  have hids : s.loops.map (·.id) = frames.map (·.id) := by
    rw [← t.frames, List.map_map]
    rfl
  rw [← hids] at h ⊢
  exact ⟨rfl, findLoop_innermost h⟩

theorem sitedHandlers (arms : ExceptArms) {n : ℕ} {loops : List (Option ℕ)}
    (ha : arms.scoped n loops = true) {s : State} {a : Account} {d m : ℕ} {frames : List Frame}
    (t : Standing s a d m none frames) : SitedHandlers arms s := by
  match arms with
  | .nil => trivial
  | .cons id codes stmt next =>
    simp only [ExceptArms.scoped, Bool.and_eq_true] at ha
    refine ⟨sitedArgList codes ha.1.1.2 t nofun, fun s1 h1 => ?_⟩
    have t1 := generateCodes_stands codes ha.1.1.2 t h1
    exact sitedHandlers next ha.2 (((t1.extended .pushLabel).label none).push 1)

mutual
theorem sitedStmt (st : Stmt) {n : ℕ} {s : State} {a : Account} {d m : ℕ} {frames : List Frame}
    (t : Standing s a d m none frames) (hs : st.scoped n (frames.map (·.id)) = true) :
    SitedStmt st (frames.map (·.id)) s := by
  match st with
  | .cond arms otherwise =>
    simp only [Stmt.scoped, Bool.and_eq_true] at hs
    refine ⟨sitedArms arms t hs.1, fun r h => ?_⟩
    exact sitedStmts otherwise (generateArms_stands arms t hs.1 h) hs.2
  | .list id expr body =>
    simp only [Stmt.scoped, Bool.and_eq_true] at hs
    refine ⟨sitedExpr expr hs.1.2 t nofun, fun s1 h1 => ?_⟩
    have t1 := (generateExpr_stands expr hs.1.2 t h1).op (optimNumToOpcode 1)
    have t2 := (((t1.push 1).op .forList).varRef id).label none
    exact sitedStmts body
      (t2.enter (some id) (d+2) d t2.cur (congrArg (·-2) t2.cur)) hs.2
  | .range id lo hi body =>
    simp only [Stmt.scoped, Bool.and_eq_true] at hs
    refine ⟨sitedExpr lo hs.1.1.2 t nofun, fun s1 h1 => ?_⟩
    have t1 := generateExpr_stands lo hs.1.1.2 t h1
    refine ⟨sitedExpr hi hs.1.2 t1 nofun, fun s2 h2 => ?_⟩
    have t2 := (((generateExpr_stands hi hs.1.2 t1 h2).op .forRange).varRef id).label none
    exact sitedStmts body
      (t2.enter (some id) (d+2) d t2.cur (congrArg (·-2) t2.cur)) hs.2
  | .while id condition body =>
    simp only [Stmt.scoped, Bool.and_eq_true] at hs
    refine ⟨sitedExpr condition hs.1.2 t nofun, fun s1 h1 => ?_⟩
    have t1 := (generateExpr_stands condition hs.1.2 t h1).loopTest id
    have t2 := (t1.label none).pop 1 d rfl
    exact sitedStmts body (t2.enter id d d t2.cur t2.cur) hs.2
  | .fork id time body =>
    simp only [Stmt.scoped, Bool.and_eq_true] at hs
    refine ⟨sitedExpr time hs.1.2 t nofun, fun s1 h1 => ?_⟩
    exact sitedStmts body (initState_standing _) hs.2
  | .expr expr | .return (some expr) => exact sitedExpr expr hs t nofun
  | .return none => trivial
  | .tryExcept body excepts =>
    simp only [Stmt.scoped, Bool.and_eq_true] at hs
    refine ⟨sitedHandlers excepts hs.2 t, fun r h => ?_⟩
    have t1 := pushHandlers_stands excepts hs.2 t h
    have t2 := ((t1.extended .tryExcept).byte excepts.length).push 1
    refine ⟨sitedStmts body t2 hs.1, fun s2 h2 => ?_⟩
    have t3 := (generateStmts_stands body t2 hs.1 h2).extended .endExcept
    exact sitedExcepts excepts ((t3.label none).pop (2*excepts.length+1) d rfl) hs.2
  | .tryFinally body handler =>
    simp only [Stmt.scoped, Bool.and_eq_true] at hs
    have t1 := ((t.extended .tryFinally).label none).push 1
    refine ⟨sitedStmts body t1 hs.1, fun s2 h2 => ?_⟩
    have t2 := ((generateStmts_stands body t1 hs.1 h2).extended .endFinally).pop 1 d rfl
    exact sitedStmts handler ((t2.define _).push 2) hs.2
  | .break exit | .continue exit => exact t.atExit hs
theorem sitedStmts (ss : Stmts) {n : ℕ} {s : State} {a : Account} {d m : ℕ}
    {frames : List Frame} (t : Standing s a d m none frames)
    (hs : ss.scoped n (frames.map (·.id)) = true) : SitedStmts ss (frames.map (·.id)) s := by
  match ss with
  | .nil => trivial
  | .cons stmt next =>
    simp only [Stmts.scoped, Bool.and_eq_true] at hs
    refine ⟨sitedStmt stmt t hs.1, fun s1 h1 => ?_⟩
    exact sitedStmts next (generateStmt_stands stmt t hs.1 h1) hs.2
theorem sitedArms (arms : CondArms) {n : ℕ} {ifOp : Opcode} {l : Option ℕ} {s : State}
    {a : Account} {d m : ℕ} {frames : List Frame} (t : Standing s a d m none frames)
    (hs : arms.scoped n (frames.map (·.id)) = true) :
    SitedArms arms ifOp l (frames.map (·.id)) s := by
  match arms with
  | .nil => trivial
  | .cons condition stmt next =>
    simp only [CondArms.scoped, Bool.and_eq_true] at hs
    refine ⟨sitedExpr condition hs.1.1 t nofun, fun s1 h1 => ?_⟩
    have t1 := ((generateExpr_stands condition hs.1.1 t h1).op ifOp).label none
    refine ⟨sitedStmts stmt (t1.pop 1 d rfl) hs.1.2, fun s2 h2 => ?_⟩
    have t2 := (generateStmts_stands stmt (t1.pop 1 d rfl) hs.1.2 h2).op .jump
    exact sitedArms next ((t2.label l).define _) hs.2
theorem sitedExcepts (arms : ExceptArms) {n : ℕ} {labels : List ℕ} {l : Option ℕ} {s : State}
    {a : Account} {d m : ℕ} {frames : List Frame} (t : Standing s a d m none frames)
    (hs : arms.scoped n (frames.map (·.id)) = true) :
    SitedExcepts arms labels l (frames.map (·.id)) s := by
  match arms with
  | .nil => trivial
  | .cons id codes stmt next =>
    simp only [ExceptArms.scoped, Bool.and_eq_true] at hs
    have t1 := ((((t.define labels.head?).push 1).armId id).op .pop).pop 1 d rfl
    refine ⟨sitedStmts stmt t1 hs.1.2, fun s2 h2 => ?_⟩
    have t2 := (generateStmts_stands stmt t1 hs.1.2 h2).op .jump
    exact sitedExcepts next (t2.label l) hs.2
end

end LambdaMoo.CodeGen
