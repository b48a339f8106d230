import LambdaMoo.ParseScopes

/-!
# Programs without a complaint are in scope

The rules of arguments, scattering targets and statements keep what those of
expressions keep. The name of a loop is pushed before its body is read and
gets its slot only after it; both are read in the final table, where a name
and an exit that agree up to case have the same slot.
-/

set_option autoImplicit false

namespace LambdaMoo.Parse
open LambdaMoo.DbIo LambdaMoo.Grammar

section
variable {x : Library} {functions N : List Str} {r : Rule} {left us : List Val} {v : Val}
  {s s₁ s₂ : PState}

theorem good_codes (hr : r.lhs = .codes) (h : Trace PlainToken (Good N) [] r.rhs s us s₁)
    (ha : r.action x functions left us s₁ = some (v, s₂)) : Good N left .codes s v s₂ := by
  cases r with
  | anyCode =>
    obtain ⟨he, ⟨_, rfl⟩, -⟩ := trace_neutral rfl h
    cases ha
    exact ⟨he, ⟨_, rfl⟩, fun _ _ => rfl⟩
  | codes =>
    obtain ⟨he, ⟨a, rfl⟩, hin⟩ := trace_neutral rfl h
    cases ha
    exact ⟨he, ⟨_, rfl⟩, fun hN hq => (hin hN hq).1⟩
  | _ => cases hr

theorem good_default (hr : r.lhs = .default) (h : Trace PlainToken (Good N) [] r.rhs s us s₁)
    (ha : r.action x functions left us s₁ = some (v, s₂)) : Good N left .default s v s₂ := by
  cases r with
  | noDefault =>
    obtain ⟨he, rfl, -⟩ := trace_neutral rfl h
    cases ha
    exact ⟨he, ⟨_, rfl⟩, fun _ _ => rfl⟩
  | default =>
    obtain ⟨he, ⟨_, e, rfl⟩, hin⟩ := trace_neutral rfl h
    cases ha
    exact ⟨he, ⟨_, rfl⟩, fun hN hq => (hin hN hq).1⟩
  | _ => cases hr

theorem good_arglist (hr : r.lhs = .arglist) (h : Trace PlainToken (Good N) [] r.rhs s us s₁)
    (ha : r.action x functions left us s₁ = some (v, s₂)) : Good N left .arglist s v s₂ := by
  cases r with
  | noArgs =>
    obtain ⟨he, rfl, -⟩ := trace_neutral rfl h
    cases ha
    exact ⟨he, ⟨_, rfl⟩, fun _ _ => rfl⟩
  | args =>
    obtain ⟨he, ⟨a, rfl⟩, hin⟩ := trace_neutral rfl h
    cases ha
    exact ⟨he, ⟨_, rfl⟩, fun hN hq => (hin hN hq).1⟩
  | _ => cases hr

theorem scoped_oneArg {n : ℕ} {dollar : Bool} (kind : ArgKind) {e : Expr}
    (h : e.scoped n dollar = true) : (ArgList.cons kind e .nil).scoped n dollar = true := by
  simp only [ArgList.scoped, Bool.and_eq_true]
  exact ⟨h, trivial⟩

theorem good_neArglist (hr : r.lhs = .neArglist) (h : Trace PlainToken (Good N) [] r.rhs s us s₁)
    (ha : r.action x functions left us s₁ = some (v, s₂)) : Good N left .neArglist s v s₂ := by
  cases r with
  | oneArg =>
    obtain ⟨he, ⟨e, rfl⟩, hin⟩ := trace_neutral rfl h
    cases ha
    exact ⟨he, ⟨_, rfl⟩, fun hN hq => scoped_oneArg .normal (hin hN hq).1⟩
  | oneSplice =>
    obtain ⟨he, ⟨_, e, rfl⟩, hin⟩ := trace_neutral rfl h
    cases ha
    exact ⟨he, ⟨_, rfl⟩, fun hN hq => scoped_oneArg .splice (hin hN hq).1⟩
  | moreArgs =>
    obtain ⟨he, ⟨a, _, e, rfl⟩, hin⟩ := trace_neutral rfl h
    cases ha
    refine ⟨he, ⟨_, rfl⟩, fun hN hq => ?_⟩
    obtain ⟨h₁, h₂, -⟩ := hin hN hq
    exact scoped_appendArgs h₁ (scoped_oneArg .normal h₂)
  | moreSplices =>
    obtain ⟨he, ⟨a, _, _, e, rfl⟩, hin⟩ := trace_neutral rfl h
    cases ha
    refine ⟨he, ⟨_, rfl⟩, fun hN hq => ?_⟩
    obtain ⟨h₁, h₂, -⟩ := hin hN hq
    exact scoped_appendArgs h₁ (scoped_oneArg .splice h₂)
  | _ => cases hr

theorem scoped_oneItem {n slot : ℕ} {dollar : Bool} (kind : ScatterKind) {e : OptExpr}
    (hs : slot < n) (h : e.scoped n dollar = true) :
    (Scatter.cons kind slot e .nil).scoped n dollar = true := by
  simp only [Scatter.scoped, Bool.and_eq_true, decide_eq_true_eq]
  exact ⟨⟨hs, h⟩, trivial⟩

theorem good_scatter (hr : r.lhs = .scatter) (h : Trace PlainToken (Good N) [] r.rhs s us s₁)
    (ha : r.action x functions left us s₁ = some (v, s₂)) : Good N left .scatter s v s₂ := by
  cases r with
  | scatterArgs =>
    obtain ⟨he, ⟨a, _, item, rfl⟩, hin⟩ := trace_neutral rfl h
    cases ha
    have hc := scatterFromArglist_effect (N := N) a s₁
    refine ⟨he.keep hc, ⟨_, rfl⟩, fun hN hq => ?_⟩
    obtain ⟨h₁, h₂, -⟩ := hin hN (hc.quiet hq)
    exact scoped_addScatterItem (scatterFromArglist_scoped h₁ hq) h₂
  | moreItems =>
    obtain ⟨he, ⟨sc, _, item, rfl⟩, hin⟩ := trace_neutral rfl h
    cases ha
    refine ⟨he, ⟨_, rfl⟩, fun hN hq => ?_⟩
    obtain ⟨h₁, h₂, -⟩ := hin hN hq
    exact scoped_addScatterItem h₁ h₂
  | moreIds =>
    obtain ⟨he, ⟨sc, _, w, hw, rfl⟩, hin⟩ := trace_neutral rfl h
    cases ha
    have hc := findId_effect (N := N) hw s₁
    refine ⟨he.keep hc, ⟨_, rfl⟩, fun hN hq => ?_⟩
    exact scoped_addScatterItem (hin hN (hc.quiet hq)).1
      (scoped_oneItem .required (findId_slot hw hq).2 rfl)
  | moreRests =>
    obtain ⟨he, ⟨sc, _, _, w, hw, rfl⟩, hin⟩ := trace_neutral rfl h
    cases ha
    have hc := findId_effect (N := N) hw s₁
    refine ⟨he.keep hc, ⟨_, rfl⟩, fun hN hq => ?_⟩
    exact scoped_addScatterItem (hin hN (hc.quiet hq)).1
      (scoped_oneItem .rest (findId_slot hw hq).2 rfl)
  | oneItem =>
    obtain ⟨he, ⟨sc, rfl⟩, hin⟩ := trace_neutral rfl h
    cases ha
    exact ⟨he, ⟨_, rfl⟩, fun hN hq => (hin hN hq).1⟩
  | _ => cases hr

theorem good_scatterItem (hr : r.lhs = .scatterItem)
    (h : Trace PlainToken (Good N) [] r.rhs s us s₁)
    (ha : r.action x functions left us s₁ = some (v, s₂)) : Good N left .scatterItem s v s₂ := by
  cases r with
  | optional =>
    obtain ⟨he, ⟨_, w, hw, rfl⟩, -⟩ := trace_neutral rfl h
    cases ha
    refine ⟨he.keep (findId_effect hw s₁), ⟨_, rfl⟩, fun hN hq => ?_⟩
    exact scoped_oneItem .optional (findId_slot hw hq).2 rfl
  | optionalDefault =>
    obtain ⟨he, ⟨_, w, hw, _, e, rfl⟩, hin⟩ := trace_neutral rfl h
    cases ha
    have hc := findId_effect (N := N) hw s₁
    refine ⟨he.keep hc, ⟨_, rfl⟩, fun hN hq => ?_⟩
    exact scoped_oneItem .optional (findId_slot hw hq).2 (hin hN (hc.quiet hq)).1
  | _ => cases hr

/-- The actions in the middle of a rule. -/
theorem good_mark (hr : r.lhs.neutral = false) (h : Trace PlainToken (Good N) [] r.rhs s us s₁)
    (ha : r.action x functions left us s₁ = some (v, s₂)) : Good N left r.lhs s v s₂ := by
  cases r with
  | dollarsUp | pushWhile | suspendScope =>
    obtain ⟨rfl, rfl⟩ := Trace.done.mp h
    cases ha
    exact ⟨⟨id, id, rfl, rfl⟩, ⟨_, rfl⟩, fun _ _ => trivial⟩
  | pushForList =>
    obtain ⟨rfl, rfl⟩ := Trace.done.mp h
    match left, ha with
    | _::_::_::_::.string w::_, rfl => exact ⟨⟨id, id, rfl, rfl⟩, ⟨_, rfl⟩, fun _ _ => trivial⟩
  | pushForRange =>
    obtain ⟨rfl, rfl⟩ := Trace.done.mp h
    match left, ha with
    | _::_::_::_::_::_::.string w::_, rfl =>
      exact ⟨⟨id, id, rfl, rfl⟩, ⟨_, rfl⟩, fun _ _ => trivial⟩
  | pushWhileId =>
    obtain ⟨rfl, rfl⟩ := Trace.done.mp h
    match left, ha with
    | _::_::_::.string w::_, rfl => exact ⟨⟨id, id, rfl, rfl⟩, ⟨_, rfl⟩, fun _ _ => trivial⟩
  | _ => cases hr

theorem good_checkExcepts (hr : r.lhs = .checkExcepts)
    (h : Trace PlainToken (Good N) [] r.rhs s us s₁)
    (ha : r.action x functions left us s₁ = some (v, s₂)) :
    Good N left .checkExcepts s v s₂ := by
  cases r with
  | checkExcepts =>
    obtain ⟨rfl, rfl⟩ := Trace.done.mp h
    match left, ha with
    | _::.excepts arms::_, rfl =>
      exact ⟨checkExcepts_effect arms s₁, ⟨_, rfl⟩, fun _ _ => trivial⟩
  | _ => cases hr

theorem good_optId (hr : r.lhs = .optId) (h : Trace PlainToken (Good N) [] r.rhs s us s₁)
    (ha : r.action x functions left us s₁ = some (v, s₂)) : Good N left .optId s v s₂ := by
  cases r with
  | noId =>
    obtain ⟨he, rfl, -⟩ := trace_neutral rfl h
    cases ha
    exact ⟨he, .inl rfl, fun _ _ => trivial⟩
  | someId =>
    obtain ⟨he, ⟨w, hw, rfl⟩, -⟩ := trace_neutral rfl h
    cases ha
    exact ⟨he, .inr ⟨w, hw, rfl⟩, fun _ _ => trivial⟩
  | _ => cases hr

theorem scoped_appendStmts {n : ℕ} {loops : List (Option ℕ)} {a b : Stmts}
    (ha : a.scoped n loops = true) (hb : b.scoped n loops = true) :
    (a.append b).scoped n loops = true := by
  fun_induction Stmts.append a b with
  | case1 => exact hb
  | case2 st next b ih =>
    rw [Stmts.scoped, Bool.and_eq_true] at ha ⊢
    exact ⟨ha.1, ih ha.2 hb⟩

theorem scoped_appendArms {n : ℕ} {loops : List (Option ℕ)} {a b : CondArms}
    (ha : a.scoped n loops = true) (hb : b.scoped n loops = true) :
    (appendArms a b).scoped n loops = true := by
  fun_induction appendArms a b with
  | case1 => exact hb
  | case2 e st next b ih =>
    rw [CondArms.scoped, Bool.and_eq_true] at ha ⊢
    exact ⟨ha.1, ih ha.2 hb⟩

theorem scoped_appendExcepts {n : ℕ} {loops : List (Option ℕ)} {a b : ExceptArms}
    (ha : a.scoped n loops = true) (hb : b.scoped n loops = true) :
    (appendExcepts a b).scoped n loops = true := by
  fun_induction appendExcepts a b with
  | case1 => exact hb
  | case2 id cs st next b ih =>
    rw [ExceptArms.scoped, Bool.and_eq_true] at ha ⊢
    exact ⟨ha.1, ih ha.2 hb⟩

theorem scoped_one {n : ℕ} {loops : List (Option ℕ)} {st : Stmt} (h : st.scoped n loops = true) :
    (Stmts.single st).scoped n loops = true := by
  rw [Stmts.single, Stmts.scoped, h]
  rfl

/-- Outside of brackets `$` may not stand in an expression of a statement. -/
theorem AtStmt.expr (hs : AtStmt s) {e : Expr} (h : InScope N s (.expr e)) :
    e.scoped N.length false = true := by
  simpa [InScope, hs.dollars] using h

theorem AtStmt.args (hs : AtStmt s) {a : ArgList} (h : InScope N s (.args a)) :
    a.scoped N.length false = true := by
  simpa [InScope, hs.dollars] using h

theorem good_statements (hr : r.lhs = .program ∨ r.lhs = .statements ∨ r.lhs = .elsepart)
    (h : Trace PlainToken (Good N) [] r.rhs s us s₁)
    (ha : r.action x functions left us s₁ = some (v, s₂)) : Good N left r.lhs s v s₂ := by
  cases r with
  | program =>
    obtain ⟨he, ⟨ss, rfl⟩, hin⟩ := trace_neutral rfl h
    cases ha
    exact ⟨he, ⟨_, rfl⟩, fun hN hq => (hin hN hq).1⟩
  | noStatements | noElse =>
    obtain ⟨he, rfl, -⟩ := trace_neutral rfl h
    cases ha
    exact ⟨he, ⟨_, rfl⟩, fun _ _ _ => rfl⟩
  | moreStatements =>
    obtain ⟨he, ⟨ss, st, rfl⟩, hin⟩ := trace_neutral rfl h
    cases ha
    refine ⟨he, ⟨_, rfl⟩, fun hN hq hs => ?_⟩
    obtain ⟨h₁, h₂, -⟩ := hin hN hq
    exact scoped_appendStmts (h₁ hs) (h₂ hs)
  | «else» =>
    obtain ⟨he, ⟨_, ss, rfl⟩, hin⟩ := trace_neutral rfl h
    cases ha
    exact ⟨he, ⟨_, rfl⟩, fun hN hq => (hin hN hq).1⟩
  | _ => simp [Rule.lhs] at hr

theorem good_elseifs (hr : r.lhs = .elseifs) (h : Trace PlainToken (Good N) [] r.rhs s us s₁)
    (ha : r.action x functions left us s₁ = some (v, s₂)) : Good N left .elseifs s v s₂ := by
  cases r with
  | noElseifs =>
    obtain ⟨he, rfl, -⟩ := trace_neutral rfl h
    cases ha
    exact ⟨he, ⟨_, rfl⟩, fun _ _ _ => rfl⟩
  | moreElseifs =>
    obtain ⟨he, ⟨arms, _, _, e, _, body, rfl⟩, hin⟩ := trace_neutral rfl h
    cases ha
    refine ⟨he, ⟨_, rfl⟩, fun hN hq hs => ?_⟩
    obtain ⟨h₁, h₂, h₃, -⟩ := hin hN hq
    refine scoped_appendArms (h₁ hs) ?_
    rw [CondArms.scoped, hs.expr h₂, h₃ hs]
    rfl
  | _ => cases hr

theorem good_excepts (hr : r.lhs = .excepts) (h : Trace PlainToken (Good N) [] r.rhs s us s₁)
    (ha : r.action x functions left us s₁ = some (v, s₂)) : Good N left .excepts s v s₂ := by
  cases r with
  | oneExcept =>
    obtain ⟨he, ⟨_, arm, rfl⟩, hin⟩ := trace_neutral rfl h
    cases ha
    exact ⟨he, ⟨_, rfl⟩, fun hN hq => (hin hN hq).1⟩
  | moreExcepts =>
    obtain ⟨he, ⟨arms, _, _, arm, rfl⟩, hin⟩ := trace_neutral rfl h
    cases ha
    refine ⟨he, ⟨_, rfl⟩, fun hN hq hs => ?_⟩
    obtain ⟨h₁, -, h₂, -⟩ := hin hN hq
    exact scoped_appendExcepts (h₁ hs) (h₂ hs)
  | _ => cases hr

theorem scoped_oneExcept {n : ℕ} {loops : List (Option ℕ)} {id : Option ℕ} {cs : ArgList}
    {body : Stmts} (hid : nameScoped n id = true) (hcs : cs.scoped n false = true)
    (hbody : body.scoped n loops = true) :
    (ExceptArms.cons id cs body .nil).scoped n loops = true := by
  rw [ExceptArms.scoped, hid, hcs, hbody]
  rfl

theorem good_except (hr : r.lhs = .except) (h : Trace PlainToken (Good N) [] r.rhs s us s₁)
    (ha : r.action x functions left us s₁ = some (v, s₂)) : Good N left .except s v s₂ := by
  cases r with
  | except =>
    obtain ⟨he, hshape, hin⟩ := trace_neutral rfl h
    obtain ⟨_, cs, _, body, rfl⟩ | ⟨w, hw, _, cs, _, body, rfl⟩ := hshape
    · cases ha
      refine ⟨he, ⟨_, rfl⟩, fun hN hq hs => ?_⟩
      obtain ⟨-, h₁, h₂, -⟩ := hin hN hq
      exact scoped_oneExcept rfl (hs.args h₁) (h₂ hs)
    · cases ha
      have hc := findId_effect (N := N) hw s₁
      refine ⟨he.keep hc, ⟨_, rfl⟩, fun hN hq hs => ?_⟩
      obtain ⟨-, h₁, h₂, -⟩ := hin hN (hc.quiet hq)
      exact scoped_oneExcept (decide_eq_true (findId_slot hw hq).2) (hs.args h₁) (h₂ hs)
  | _ => cases hr

/-! The loops around a statement. -/

theorem Effect.push {a b : PState} {l : LoopEntry} (h : Effect N s s.loops s.dollarsOk a)
    (h' : Effect N a (l::a.loops) a.dollarsOk b) : Effect N s (l::s.loops) s.dollarsOk b := by
  rw [h.loops, h.dollars] at h'
  exact h.trans h'

theorem popLoopName_quiet {b : PState} (h : Quiet N (popLoopName b)) : Quiet N b := by
  rw [popLoopName] at h
  split at h <;> exact h

theorem resumeLoopScope_quiet {b : PState} (h : Quiet N (resumeLoopScope b)) : Quiet N b := by
  rw [resumeLoopScope] at h
  split at h <;> exact h

theorem Effect.pop {b : PState} {name : Option Str} {d : ℤ}
    (h : Effect N s (⟨name, false⟩::s.loops) d b) : Effect N s s.loops d (popLoopName b) := by
  have hb : popLoopName b = {b with loops := s.loops} := by rw [popLoopName, h.loops]
  rw [hb]
  exact ⟨h.tidy, h.quiet, rfl, h.dollars⟩

theorem Effect.resume {b : PState} {d : ℤ} (h : Effect N s (⟨none, true⟩::s.loops) d b) :
    Effect N s s.loops d (resumeLoopScope b) := by
  have hb : resumeLoopScope b = {b with loops := s.loops} := by rw [resumeLoopScope, h.loops]
  rw [hb]
  exact ⟨h.tidy, h.quiet, rfl, h.dollars⟩

theorem AtStmt.body {b : PState} {name : Option Str} {ss : Stmts} (hs : AtStmt s)
    (hname : ∀ w, name = some w → 0 ∉ w)
    (he : Effect N s (⟨name, false⟩::s.loops) s.dollarsOk b) (h : InScope N b (.stmts ss)) :
    ss.scoped N.length (name.map (slotIn N)::openLoops N s.loops) = true := by
  have hb : AtStmt b := by
    refine ⟨he.dollars.trans hs.dollars, ?_⟩
    rw [he.loops]
    exact List.forall_mem_cons.mpr ⟨hname, hs.loops⟩
  have := h hb
  rwa [he.loops] at this

theorem AtStmt.fork {b : PState} {ss : Stmts} (hs : AtStmt s)
    (he : Effect N s (⟨none, true⟩::s.loops) s.dollarsOk b) (h : InScope N b (.stmts ss)) :
    ss.scoped N.length [] = true := by
  have hb : AtStmt b := by
    refine ⟨he.dollars.trans hs.dollars, ?_⟩
    rw [he.loops]
    exact List.forall_mem_cons.mpr ⟨fun w hw => (nomatch hw), hs.loops⟩
  have := h hb
  rwa [he.loops] at this

/-- An exit that passes the check has a loop to leave. -/
theorem exitOk_unnamed {isBreak : Bool} (h : Quiet N (checkLoopName none isBreak s)) :
    exitOk (openLoops N s.loops) none = true := by
  rw [checkLoopName] at h
  split at h
  · next hl =>
    rw [hl]
    rfl
  · split at h <;> exact absurd h (not_quiet_error s _ none)

theorem exitOk_named {isBreak : Bool} {w : Str} (hs : AtStmt s) (hN : Tidy N) (hw : 0 ∉ w)
    (h : Quiet N (checkLoopName (some w) isBreak s)) :
    exitOk (openLoops N s.loops) (some (slotIn N w)) = true := by
  rw [checkLoopName] at h
  split at h
  · next hany =>
    obtain ⟨l, hl, hname⟩ := List.any_eq_true.mp hany
    obtain ⟨m, hm, hc⟩ : ∃ m, l.name = some m ∧ mystrcasecmp m w = 0 := by
      cases hm : l.name with
      | none => simp [hm] at hname
      | some m => exact ⟨m, rfl, by simpa [hm] using hname⟩
    have hmem : l ∈ s.loops := (List.takeWhile_sublist _).subset hl
    have hslot := slotIn_congr hN (hs.loops l hmem m hm) hw hc
    rw [exitOk, List.contains_iff_mem, openLoops, List.mem_map]
    exact ⟨l, hl, by rw [hm, Option.map_some, hslot]⟩
  · split at h <;> exact absurd h (not_quiet_error s _ _)

theorem good_statement (hr : r.lhs = .statement) (h : Trace PlainToken (Good N) [] r.rhs s us s₁)
    (ha : r.action x functions left us s₁ = some (v, s₂)) : Good N left .statement s v s₂ := by
  cases r with
  | cond =>
    obtain ⟨he, ⟨_, _, e, _, body, arms, otherwise, _, rfl⟩, hin⟩ := trace_neutral rfl h
    cases ha
    refine ⟨he, ⟨_, rfl⟩, fun hN hq hs => scoped_one ?_⟩
    obtain ⟨h₁, h₂, h₃, h₄, -⟩ := hin hN hq
    rw [Stmt.scoped, CondArms.scoped, hs.expr h₁, h₂ hs, h₃ hs, h₄ hs]
    rfl
  | forList =>
    obtain ⟨_, w, hw, _, _, e, _, _, body, _, rfl⟩ := trace_shaped h
    cases ha
    obtain ⟨-, -, -, -, a, g₁, -, b, g₂, _, g₃, -, rfl⟩ := h
    have he := g₁.effect.push (l := ⟨some w, false⟩) g₂.effect
    have hf := findId_effect (N := N) hw s₁
    refine ⟨((he.keep g₃.effect).keep hf).pop, ⟨_, rfl⟩, fun hN hq hs => scoped_one ?_⟩
    have hq := popLoopName_quiet hq
    have hq₁ := hf.quiet hq
    have hbody := hs.body (fun _ h => Option.some.inj h ▸ hw) he (g₃.inScope hN hq₁)
    have h₁ := hs.expr (g₁.inScope hN (g₂.effect.quiet (g₃.effect.quiet hq₁)))
    obtain ⟨hslot, hlt⟩ := findId_slot hw hq
    rw [Option.map_some, ← hslot] at hbody
    rw [Stmt.scoped, decide_eq_true hlt, h₁, hbody]
    rfl
  | forRange =>
    obtain ⟨_, w, hw, _, _, lo, _, hi, _, _, body, _, rfl⟩ := trace_shaped h
    cases ha
    obtain ⟨-, -, -, -, a, g₁, -, a', g₂, -, b, g₃, _, g₄, -, rfl⟩ := h
    have he := (g₁.effect.keep g₂.effect).push (l := ⟨some w, false⟩) g₃.effect
    have hf := findId_effect (N := N) hw s₁
    refine ⟨((he.keep g₄.effect).keep hf).pop, ⟨_, rfl⟩, fun hN hq hs => scoped_one ?_⟩
    have hq := popLoopName_quiet hq
    have hq₁ := hf.quiet hq
    have hbody := hs.body (fun _ h => Option.some.inj h ▸ hw) he (g₄.inScope hN hq₁)
    have hq₂ := g₃.effect.quiet (g₄.effect.quiet hq₁)
    have h₁ := hs.expr (g₁.inScope hN (g₂.effect.quiet hq₂))
    have h₂ := hs.expr (g₁.effect.inScope (g₂.inScope hN hq₂))
    obtain ⟨hslot, hlt⟩ := findId_slot hw hq
    rw [Option.map_some, ← hslot] at hbody
    rw [Stmt.scoped, decide_eq_true hlt, h₁, h₂, hbody]
    rfl
  | «while» =>
    obtain ⟨_, _, e, _, _, body, _, rfl⟩ := trace_shaped h
    cases ha
    obtain ⟨-, -, a, g₁, -, b, g₂, _, g₃, -, rfl⟩ := h
    have he := g₁.effect.push (l := ⟨none, false⟩) g₂.effect
    refine ⟨(he.keep g₃.effect).pop, ⟨_, rfl⟩, fun hN hq hs => scoped_one ?_⟩
    have hq := popLoopName_quiet hq
    have hbody := hs.body (by simp) he (g₃.inScope hN hq)
    have h₁ := hs.expr (g₁.inScope hN (g₂.effect.quiet (g₃.effect.quiet hq)))
    rw [Option.map_none] at hbody
    rw [Stmt.scoped, nameScoped, h₁, hbody]
    rfl
  | whileId =>
    obtain ⟨_, w, hw, _, e, _, _, body, _, rfl⟩ := trace_shaped h
    cases ha
    obtain ⟨-, -, -, a, g₁, -, b, g₂, _, g₃, -, rfl⟩ := h
    have he := g₁.effect.push (l := ⟨some w, false⟩) g₂.effect
    have hf := findId_effect (N := N) hw s₁
    refine ⟨((he.keep g₃.effect).keep hf).pop, ⟨_, rfl⟩, fun hN hq hs => scoped_one ?_⟩
    have hq := popLoopName_quiet hq
    have hq₁ := hf.quiet hq
    have hbody := hs.body (fun _ h => Option.some.inj h ▸ hw) he (g₃.inScope hN hq₁)
    have h₁ := hs.expr (g₁.inScope hN (g₂.effect.quiet (g₃.effect.quiet hq₁)))
    obtain ⟨hslot, hlt⟩ := findId_slot hw hq
    rw [Option.map_some, ← hslot] at hbody
    rw [Stmt.scoped, nameScoped, decide_eq_true hlt, h₁, hbody]
    rfl
  | fork =>
    obtain ⟨_, _, e, _, _, body, _, rfl⟩ := trace_shaped h
    cases ha
    obtain ⟨-, -, a, g₁, -, b, g₂, _, g₃, -, rfl⟩ := h
    have he := g₁.effect.push (l := ⟨none, true⟩) g₂.effect
    refine ⟨(he.keep g₃.effect).resume, ⟨_, rfl⟩, fun hN hq hs => scoped_one ?_⟩
    have hq := resumeLoopScope_quiet hq
    have hbody := hs.fork he (g₃.inScope hN hq)
    have h₁ := hs.expr (g₁.inScope hN (g₂.effect.quiet (g₃.effect.quiet hq)))
    rw [Stmt.scoped, nameScoped, h₁, hbody]
    rfl
  | forkId =>
    obtain ⟨_, w, hw, _, e, _, _, body, _, rfl⟩ := trace_shaped h
    cases ha
    obtain ⟨-, -, -, a, g₁, -, b, g₂, _, g₃, -, rfl⟩ := h
    have he := g₁.effect.push (l := ⟨none, true⟩) g₂.effect
    have hf := findId_effect (N := N) hw s₁
    refine ⟨((he.keep g₃.effect).keep hf).resume, ⟨_, rfl⟩, fun hN hq hs => scoped_one ?_⟩
    have hq := resumeLoopScope_quiet hq
    have hq₁ := hf.quiet hq
    have hbody := hs.fork he (g₃.inScope hN hq₁)
    have h₁ := hs.expr (g₁.inScope hN (g₂.effect.quiet (g₃.effect.quiet hq₁)))
    rw [Stmt.scoped, nameScoped, decide_eq_true (findId_slot hw hq).2, h₁, hbody]
    rfl
  | exprStmt =>
    obtain ⟨he, ⟨e, _, rfl⟩, hin⟩ := trace_neutral rfl h
    cases ha
    exact ⟨he, ⟨_, rfl⟩, fun hN hq hs => scoped_one (hs.expr (hin hN hq).1)⟩
  | «break» | «continue» =>
    obtain ⟨he, ⟨_, _, rfl⟩, -⟩ := trace_neutral rfl h
    cases ha
    refine ⟨he.keep (checkLoopName_effect none _ s₁), ⟨_, rfl⟩, fun hN hq hs => scoped_one ?_⟩
    rw [Stmt.scoped, ← he.loops]
    exact exitOk_unnamed hq
  | breakId | continueId =>
    obtain ⟨he, ⟨_, w, hw, _, rfl⟩, -⟩ := trace_neutral rfl h
    cases ha
    refine ⟨(he.keep (checkLoopName_effect _ _ s₁)).keep (findId_effect hw _), ⟨_, rfl⟩,
      fun hN hq hs => scoped_one ?_⟩
    have hs₁ : AtStmt s₁ := ⟨he.dollars.trans hs.dollars, he.loops ▸ hs.loops⟩
    rw [Stmt.scoped, (findId_slot hw hq).1, ← he.loops]
    exact exitOk_named hs₁ hN hw ((findId_effect hw _).quiet hq)
  | «return» =>
    obtain ⟨he, ⟨_, e, _, rfl⟩, hin⟩ := trace_neutral rfl h
    cases ha
    exact ⟨he, ⟨_, rfl⟩, fun hN hq hs => scoped_one (hs.expr (hin hN hq).1)⟩
  | return0 =>
    obtain ⟨he, ⟨_, _, rfl⟩, -⟩ := trace_neutral rfl h
    cases ha
    exact ⟨he, ⟨_, rfl⟩, fun _ _ _ => rfl⟩
  | empty =>
    obtain ⟨he, ⟨_, rfl⟩, -⟩ := trace_neutral rfl h
    cases ha
    exact ⟨he, ⟨_, rfl⟩, fun _ _ _ => rfl⟩
  | tryExcept =>
    obtain ⟨he, ⟨_, body, arms, _, rfl⟩, hin⟩ := trace_neutral rfl h
    cases ha
    refine ⟨he, ⟨_, rfl⟩, fun hN hq hs => scoped_one ?_⟩
    obtain ⟨h₁, h₂, -⟩ := hin hN hq
    rw [Stmt.scoped, h₁ hs, h₂ hs]
    rfl
  | tryFinally =>
    obtain ⟨he, ⟨_, body, _, handler, _, rfl⟩, hin⟩ := trace_neutral rfl h
    cases ha
    refine ⟨he, ⟨_, rfl⟩, fun hN hq hs => scoped_one ?_⟩
    obtain ⟨h₁, h₂, -⟩ := hin hN hq
    rw [Stmt.scoped, h₁ hs, h₂ hs]
    rfl
  | _ => cases hr

theorem good_rule (h : Trace PlainToken (Good N) [] r.rhs s us s₁)
    (ha : r.action x functions left us s₁ = some (v, s₂)) : Good N left r.lhs s v s₂ := by
  by_cases hn : r.lhs.neutral = false
  · exact good_mark hn h ha
  cases hr : r.lhs with
  | program => exact hr ▸ good_statements (.inl hr) h ha
  | statements => exact hr ▸ good_statements (.inr (.inl hr)) h ha
  | elsepart => exact hr ▸ good_statements (.inr (.inr hr)) h ha
  | statement => exact good_statement hr h ha
  | elseifs => exact good_elseifs hr h ha
  | excepts => exact good_excepts hr h ha
  | except => exact good_except hr h ha
  | optId => exact good_optId hr h ha
  | expr => exact good_expr hr h ha
  | codes => exact good_codes hr h ha
  | default => exact good_default hr h ha
  | arglist => exact good_arglist hr h ha
  | neArglist => exact good_neArglist hr h ha
  | scatter => exact good_scatter hr h ha
  | scatterItem => exact good_scatterItem hr h ha
  | checkExcepts => exact good_checkExcepts hr h ha
  | _ => exact absurd (hr ▸ rfl) hn

end

theorem builtinNames_tidy : Tidy (builtinNames currentVersion) := by
  have hall : (builtinNames currentVersion).all (fun w => !w.contains 0) = true := by decide
  refine ⟨fun w hw => ?_, by decide⟩
  simpa using List.all_eq_true.mp hall w hw

/-- A program that is accepted has a table of names, no two the same up to case, in which
all its slots lie, and no exit or `$` out of place. -/
theorem Parses.scoped {x : Library} (hx : x.Xid) {functions code : List Str} {ss : Stmts}
    (h : Parses x functions code ss) :
    ∃ names, Tidy names ∧ ss.scoped names.length [] = true := by
  obtain ⟨-, s, ⟨m, hd⟩, herrors⟩ := h
  have htokens := tokens_named hx currentVersion (startLexer code).left (startLexer code)
  have hgood (N : List Str) : Good N [] .program (startParse currentVersion) (.stmts ss) s := by
    have htrace := (hd.trace (Q := PlainToken) (P := Good N)
      (fun _ _ _ _ _ _ _ h ha => good_rule h ha) htokens).1
    obtain ⟨s₁, hg, rfl⟩ := htrace
    exact hg
  have hnames := (hgood []).effect.tidy builtinNames_tidy
  refine ⟨s.names, hnames, ?_⟩
  have hscope := (hgood s.names).inScope hnames ⟨herrors, List.prefix_refl _⟩
  exact hscope ⟨rfl, fun l hl => nomatch hl⟩

end LambdaMoo.Parse
