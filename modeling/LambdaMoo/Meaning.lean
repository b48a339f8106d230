import LambdaMoo.ExpressionSteps

/-!
# Compiled expressions

Where a vector has the code of an expression, the machine does what the
evaluation of the expression says: from any operand stack, and with any
handlers below.
-/

set_option autoImplicit false

namespace LambdaMoo.Run
open LambdaMoo.Execute LambdaMoo.CodeGen

section Meaning
variable {σ : Type} [FloatOps] {s : Setting σ}

omit [FloatOps] in
theorem instr_short {v : Vec} {d a a' : ℕ} {i : Instr} (h : v.instr d i a a') :
    a < v.bc.vector.length := by
  obtain ⟨b, hb, -⟩ := Option.bind_eq_some_iff.mp h.1
  exact (List.getElem?_eq_some_iff.mp hb).1

omit [FloatOps] in
theorem default_short {T : Tables} {v : Vec} {d : ℕ} {saved : Option ℕ} {e : OptExpr} {a a' : ℕ}
    (h : CodeDefault T v d saved e a a') : a < v.bc.vector.length := by
  cases e with
  | none =>
    obtain ⟨b, h, -⟩ := h
    exact instr_short h
  | some e =>
    obtain ⟨b, h, -⟩ := h
    exact instr_short h

mutual
/-- Where the code of an expression is, the machine brings about what its evaluation says. -/
theorem expr_ends {d : ℕ} {saved : Option ℕ} {dollar : Option Var} (e : Expr) {a a' : ℕ}
    (h : CodeExpr s.T s.v d saved e a a') {st : List Var} {f : Frame σ} {t : Var}
    (hd : Sits d saved dollar st) (hf : f.Clean) :
    s.Ends ⟨a, st, f.regs t⟩ st (s.At a' st) (evalExpr s.host dollar e f) := by
  cases e with
  | var x =>
    rw [evalExpr]
    exact ends_var h hf
  | id slot =>
    rw [evalExpr]
    exact ends_at h rfl (answers_given (given_variable (hf slot))) hf
  | and lhs rhs =>
    obtain ⟨b, c, hl, hi, hr⟩ := h
    rw [evalExpr]
    refine (expr_ends lhs hl hd hf).bind fun v g y hy => ?_
    obtain ⟨t', hv, hg, rfl⟩ := hy.top (starts_of_instr hi (by simp))
    have hstep : s.Adv ⟨b, v::st, g.regs t'⟩ _ := adv_one hi rfl
    by_cases hv' : isTrue v = true
    · rw [if_pos hv'] at hstep ⊢
      exact (expr_ends rhs hr hd hg).before hstep
    · rw [if_neg hv'] at hstep ⊢
      exact (Setting.Ends.pure (at_top hv hg)).before hstep
  | or lhs rhs =>
    obtain ⟨b, c, hl, hi, hr⟩ := h
    rw [evalExpr]
    refine (expr_ends lhs hl hd hf).bind fun v g y hy => ?_
    obtain ⟨t', hv, hg, rfl⟩ := hy.top (starts_of_instr hi (by simp))
    have hstep : s.Adv ⟨b, v::st, g.regs t'⟩ _ := adv_one hi rfl
    by_cases hv' : isTrue v = true
    · rw [if_pos hv'] at hstep ⊢
      exact (Setting.Ends.pure (at_top hv hg)).before hstep
    · rw [if_neg hv'] at hstep ⊢
      exact (expr_ends rhs hr hd hg).before hstep
  | unary op arg =>
    obtain ⟨b, harg, hi⟩ := h
    rw [evalExpr]
    refine (expr_ends arg harg hd hf).bind fun v g y hy => ?_
    obtain ⟨t', hv, hg, rfl⟩ := hy.top (starts_of_instr hi (by simp))
    exact ends_at hi rfl (answers_given (given_answer (unmarked_unaryOp op v))) hg
  | binary op lhs rhs =>
    obtain ⟨b, c, hl, hr, hi⟩ := h
    rw [evalExpr]
    refine (expr_ends lhs hl hd hf).bind fun v g y hy => ?_
    obtain ⟨t', hv, hg, rfl⟩ := hy.top (starts_expr rhs hr)
    refine ((expr_ends rhs hr (hd.push v) hg).operand hv).bind fun w g y hy => ?_
    obtain ⟨t', hw, hg, rfl⟩ := hy.top (starts_of_instr hi (by simp))
    refine ends_at hi rfl (answers_still fun r hr => ?_) hg
    obtain ⟨u, hu, hr⟩ := bind_ok.mp hr
    rw [← pure_ok.mp hr]
    exact given_answer (unmarked_binaryOp hu)
  | prop obj name =>
    obtain ⟨b, c, hl, hr, hi⟩ := h
    rw [evalExpr]
    refine (expr_ends obj hl hd hf).bind fun v g y hy => ?_
    obtain ⟨t', hv, hg, rfl⟩ := hy.top (starts_expr name hr)
    refine ((expr_ends name hr (hd.push v) hg).operand hv).bind fun w g y hy => ?_
    obtain ⟨t', hw, hg, rfl⟩ := hy.top (starts_of_instr hi (by simp))
    exact ends_at hi rfl (s.sound.getProp v w) hg
  | index base index =>
    obtain ⟨b, c, hl, hr, hi⟩ := h
    rw [evalExpr]
    refine (expr_ends base hl hd hf).bind fun v g y hy => ?_
    obtain ⟨t', hv, hg, rfl⟩ := hy.top (starts_expr index hr)
    refine ((expr_ends index hr (sits_over hd.depth v) hg).operand hv).bind fun w g y hy => ?_
    obtain ⟨t', hw, hg, rfl⟩ := hy.top (starts_of_instr hi (by simp))
    exact ends_at hi rfl (s.sound.ref hv) hg
  | range base lo hi =>
    obtain ⟨b, c, x, hl, hr, hr', hi⟩ := h
    rw [evalExpr]
    refine (expr_ends base hl hd hf).bind fun v g y hy => ?_
    obtain ⟨t', hv, hg, rfl⟩ := hy.top (starts_expr lo hr)
    have hover := sits_over hd.depth v
    refine ((expr_ends lo hr hover hg).operand hv).bind fun w g y hy => ?_
    obtain ⟨t', hw, hg, rfl⟩ := hy.top (starts_expr _ hr')
    refine (((expr_ends _ hr' (hover.push w) hg).operand hw).operand hv).bind fun u g y hy => ?_
    obtain ⟨t', hu, hg, rfl⟩ := hy.top (starts_of_instr hi (by simp))
    exact ends_at hi rfl (answers_still fun r hr => given_rangeRef hv hr) hg
  | length =>
    obtain ⟨index, hs, hi⟩ := h
    exact ends_length hd hs hi hf
  | list args =>
    rw [evalExpr]
    exact argList_ends args h hd hf
  | call func args =>
    obtain ⟨b, hargs, hi⟩ := h
    rw [evalExpr]
    refine (argList_ends args hargs hd hf).bind fun v g y hy => ?_
    obtain ⟨t', hv, hg, rfl⟩ := hy.top (starts_of_instr hi (by simp))
    exact ends_at hi rfl (s.sound.callBiFunc func v) hg
  | verb obj name args =>
    obtain ⟨b, c, x, hl, hr, hargs, hi⟩ := h
    rw [evalExpr]
    refine (expr_ends obj hl hd hf).bind fun v g y hy => ?_
    obtain ⟨t', hv, hg, rfl⟩ := hy.top (starts_expr name hr)
    refine ((expr_ends name hr (hd.push v) hg).operand hv).bind fun w g y hy => ?_
    obtain ⟨t', hw, hg, rfl⟩ := hy.top (starts_argList args hargs)
    refine (((argList_ends args hargs ((hd.push v).push w) hg).operand hw).operand hv).bind
      fun u g y hy => ?_
    obtain ⟨t', hu, hg, rfl⟩ := hy.top (starts_of_instr hi (by simp))
    exact ends_at hi rfl (s.sound.callVerb v w u) hg
  | cond condition consequent alternate =>
    obtain ⟨b, c, x, y, hcond, htest, hthen, hjump, helse⟩ := h
    rw [evalExpr]
    refine (expr_ends condition hcond hd hf).bind fun v g y hy => ?_
    obtain ⟨t', hv, hg, rfl⟩ := hy.top (starts_of_instr htest (by simp))
    have hstep : s.Adv ⟨b, v::st, g.regs t'⟩ _ := adv_one htest rfl
    by_cases hv' : isTrue v = true
    · rw [if_pos hv'] at hstep ⊢
      refine ((expr_ends consequent hthen hd hg).before hstep).onward fun w g y hy => ?_
      obtain ⟨t', hw, hg, rfl⟩ := hy.top (starts_of_instr hjump (by simp))
      exact ⟨_, adv_one hjump rfl, at_top (t := t') hw hg⟩
    · rw [if_neg hv'] at hstep ⊢
      exact (expr_ends alternate helse hd hg).before hstep
  | «catch» body codes default =>
    obtain ⟨b, c, x, y, z, hcodes, hpush, hcatch, hbody, hend, hdefault⟩ := h
    rw [evalExpr]
    refine (codes_ends codes hcodes hd hf).bind fun v g y hy => ?_
    obtain ⟨t', hv, hg, rfl⟩ := hy.top (starts_of_instr hpush (by simp))
    have hstep : s.Adv ⟨b, v::st, g.regs t'⟩
        ⟨x, .catch 1::.int (BitVec.ofNat 64 z)::v::st, g.regs t'⟩ :=
      (adv_one hpush rfl).trans (adv_one hcatch rfl)
    have hz : z < 2^64 := (default_short hdefault).trans s.short
    refine (ends_guarded hv hz hend
      (expr_ends body hbody (((hd.push v).push _).push _) hg) ?_).before hstep
    intro code args g t'' hcode hg
    exact default_ends default hdefault hd hcode hg
  | scatter sc => exact h.elim
  | asgn lhs rhs =>
    cases lhs with
    | scatter sc =>
      obtain ⟨b, c, ts, hrhs, hi, hdefaults⟩ := h
      rw [evalExpr]
      refine (expr_ends rhs hrhs hd hf).bind fun v g y hy => ?_
      obtain ⟨t', hv, hg, rfl⟩ := hy.top (starts_of_instr hi (by simp))
      have hc : 2 ≤ c := by
        have := codeExpr_lt rhs hrhs
        have := hi.lt
        omega
      refine (ends_targets hi (labelled_defaults hdefaults hc) hv hg).bind fun ps g y hy => ?_
      obtain ⟨l, rfl, hr, hs, rfl, hg, rfl⟩ := hy
      have henter := enter_ends sc hdefaults hc (sum_suits hr hs).le (hd.push (.list l)) hg (t := t')
      refine (henter.operand hv).bind fun u g y hy => ?_
      obtain ⟨hg, t', rfl⟩ := hy
      exact .pure (at_top (t := t') hv hg)
    | id slot | prop obj name | index base index | range base lo hi =>
      obtain ⟨b, c, hplace, hrhs, hstore⟩ := h
      rw [evalExpr]
      · exact ends_asgn hd hstore (place_ends _ hplace (starts_expr rhs hrhs) hd hf)
          fun st' g t hd hg => expr_ends rhs hrhs hd hg
      · simp
    | _ =>
      obtain ⟨b, c, h, -⟩ := h
      exact h.elim
theorem argList_ends {d : ℕ} {saved : Option ℕ} {dollar : Option Var} (args : ArgList) {a a' : ℕ}
    (h : CodeArgList s.T s.v d saved args a a') {st : List Var} {f : Frame σ} {t : Var}
    (hd : Sits d saved dollar st) (hf : f.Clean) :
    s.Ends ⟨a, st, f.regs t⟩ st (s.At a' st) (evalArgList s.host dollar args f) := by
  cases args with
  | nil =>
    rw [evalArgList]
    exact ⟨_, adv_one h rfl, at_top (unmarked_list.mpr (by simp)) hf⟩
  | cons kind expr next =>
    obtain ⟨b, c, he, hi, hnext⟩ := h
    rw [evalArgList]
    exact ends_first hi (expr_ends expr he hd hf) fun l g t hl hg => args_ends next hnext hd hl hg
theorem args_ends {d : ℕ} {saved : Option ℕ} {dollar : Option Var} (args : ArgList) {a a' : ℕ}
    (h : CodeArgs s.T s.v d saved args a a') {st : List Var} {l : Var} {f : Frame σ} {t : Var}
    (hd : Sits d saved dollar st) (hl : unmarked l) (hf : f.Clean) :
    s.Ends ⟨a, l::st, f.regs t⟩ st (s.At a' st) (evalArgs s.host dollar args l f) := by
  cases args with
  | nil =>
    obtain rfl : a = a' := h
    rw [evalArgs]
    exact .pure (at_top hl hf)
  | cons kind expr next =>
    obtain ⟨b, c, he, hi, hnext⟩ := h
    rw [evalArgs]
    refine ((expr_ends expr he (hd.push l) hf).operand hl).bind fun v g y hy => ?_
    obtain ⟨t', hv, hg, rfl⟩ := hy.top (starts_of_instr hi (by cases kind <;> simp [nextInstr]))
    have hcall : execInstr s.host s.T s.v.bc (nextInstr kind) ⟨c, v::l::st, g.regs t'⟩ =
        call ⟨c, v::l::st, g.regs t'⟩ st (given (nextList kind l v)) := by
      cases kind <;> rfl
    refine (ends_call hi hcall (answers_given (given_nextList kind hl hv)) hg).bind
      fun u g y hy => ?_
    obtain ⟨hu, hg, rfl⟩ := hy
    exact args_ends next hnext hd hu hg
theorem codes_ends {d : ℕ} {saved : Option ℕ} {dollar : Option Var} (args : ArgList) {a a' : ℕ}
    (h : CodeCodes s.T s.v d saved args a a') {st : List Var} {f : Frame σ} {t : Var}
    (hd : Sits d saved dollar st) (hf : f.Clean) :
    s.Ends ⟨a, st, f.regs t⟩ st (s.At a' st) (evalCodes s.host dollar args f) := by
  cases args with
  | nil =>
    rw [evalCodes]
    exact ⟨_, adv_one h rfl, at_top (t := t) trivial hf⟩
  | cons kind expr next =>
    obtain ⟨b, c, he, hi, hnext⟩ := h
    rw [evalCodes]
    exact ends_first hi (expr_ends expr he hd hf) fun l g t hl hg => args_ends next hnext hd hl hg
theorem default_ends {d : ℕ} {saved : Option ℕ} {dollar : Option Var} (e : OptExpr) {a a' : ℕ}
    (h : CodeDefault s.T s.v d saved e a a') {st args : List Var} {code : Var} {f : Frame σ}
    {t : Var} (hd : Sits d saved dollar st) (hc : unmarked code) (hf : f.Clean) :
    s.Ends ⟨a, .list (code::args)::st, f.regs t⟩ st (s.At a' st)
      (evalDefault s.host dollar e code f) := by
  cases e with
  | some e =>
    obtain ⟨b, hpop, he⟩ := h
    rw [evalDefault]
    exact (expr_ends e he hd hf).before (adv_one hpop rfl)
  | none =>
    obtain ⟨b, hnum, href⟩ := h
    rw [evalDefault]
    have hfirst : opRef (fun _ _ => return .error .type) (.list (code::args)) (.int 1) =
        .ok (.ok code) := by
      simp [opRef]
      rfl
    have hcall : refCall s.host (.list (code::args)) (.int 1) f.world = .ok (.ok code, f.world) := by
      change still (opRef _ _ _) f.world = _
      rw [still, hfirst]
      rfl
    have href' : call (⟨a', .int 1::.list (code::args)::st, f.regs t⟩ : Activ (Regs σ)) st
        (refCall s.host (.list (code::args)) (.int 1)) = .ok (.next ⟨a', code::st, f.regs t⟩) := by
      change (refCall s.host _ _ f.world >>= _) = _
      rw [hcall]
      rfl
    exact ⟨_, (adv_one hnum rfl).trans (adv_one href href'), at_top (t := t) hc hf⟩
theorem place_ends {d : ℕ} {saved : Option ℕ} {dollar : Option Var} (e : Expr) {a a' : ℕ}
    (h : CodeLvalue s.T s.v d saved e false a a') (hs : s.Starts a') {st : List Var}
    {f : Frame σ} {t : Var} (hd : Sits d saved dollar st) (hf : f.Clean) :
    s.Ends ⟨a, st, f.regs t⟩ st (AtPlace a' st e) (evalPlace s.host dollar e f) := by
  cases e with
  | id slot =>
    obtain rfl : a = a' := h
    rw [evalPlace]
    exact .pure ⟨rfl, by simp [Place.operands], hf, t, rfl⟩
  | prop obj name =>
    obtain ⟨b, c, hl, hr, rfl⟩ := h
    rw [evalPlace]
    refine (expr_ends obj hl hd hf).bind fun v g y hy => ?_
    obtain ⟨t', hv, hg, rfl⟩ := hy.top (starts_expr name hr)
    refine ((expr_ends name hr (hd.push v) hg).operand hv).bind fun w g y hy => ?_
    obtain ⟨t', hw, hg, rfl⟩ := hy.top hs
    exact .pure ⟨trivial, by simp [Place.operands, hv, hw], hg, t', rfl⟩
  | index base index =>
    obtain ⟨b, c, hbase, hindex, rfl⟩ := h
    rw [evalPlace]
    refine ends_base hbase (starts_expr index hindex) hd.depth
      (fun b hb hs => place_ends base hb hs hd hf) ?_
    intro p v g t hshape hread hops hv hg hover
    refine (((expr_ends index hindex hover hg).operand hv).below hops).bind fun i g y hy => ?_
    obtain ⟨t', hi, hg, rfl⟩ := hy.top hs
    refine .pure ⟨⟨hshape, hread⟩, ?_, hg, t', rfl⟩
    simpa [Place.operands, hv, hi] using hops
  | range base lo hi =>
    obtain ⟨b, c, hbase, hlo, hhi⟩ := h
    rw [evalPlace]
    refine ends_base hbase (starts_expr lo hlo) hd.depth
      (fun b hb hs => place_ends base hb hs hd hf) ?_
    intro p v g t hshape hread hops hv hg hover
    refine (((expr_ends lo hlo hover hg).operand hv).below hops).bind fun i g y hy => ?_
    obtain ⟨t', hi, hg, rfl⟩ := hy.top (starts_expr _ hhi)
    refine ((((expr_ends _ hhi (hover.push i) hg).operand hi).operand hv).below hops).bind
      fun j g y hy => ?_
    obtain ⟨t', hj, hg, rfl⟩ := hy.top hs
    refine .pure ⟨⟨hshape, hread⟩, ?_, hg, t', rfl⟩
    simpa [Place.operands, hv, hi, hj] using hops
  | _ => exact h.elim
/-- The blocks of the defaults follow one another. -/
theorem fall_ends {d : ℕ} {saved : Option ℕ} {dollar : Option Var} (sc : Scatter)
    {ts : List (ℕ×ℕ)} {surplus a a' : ℕ} {l : List Var}
    (h : CodeDefaults s.T s.v d saved sc ts a a') {st : List Var} {f : Frame σ} {t : Var}
    (hd : Sits d saved dollar st) (hf : f.Clean) :
    s.Ends ⟨a, st, f.regs t⟩ st (fun _ => Setting.Quiet a' st)
      (evalDefaults s.host dollar sc (pieces (shares surplus 0 sc) l) f) := by
  cases sc with
  | nil =>
    obtain ⟨-, rfl⟩ := h
    exact .pure ⟨hf, t, rfl⟩
  | cons kind id e next =>
    cases kind with
    | optional =>
      cases e with
      | none =>
        obtain ⟨rest, -, hnext⟩ := h
        exact fall_ends next hnext hd hf
      | some e =>
        obtain ⟨rest, b, c, x, -, he, hput, hpop, hnext⟩ := h
        exact ends_default hput hpop (expr_ends e he hd hf) fun g t hg => fall_ends next hnext hd hg
    | required | rest =>
      obtain ⟨rest, -, hnext⟩ := h
      exact fall_ends next hnext hd hf
/-- The defaults are entered at the first one that is needed. -/
theorem enter_ends {d : ℕ} {saved : Option ℕ} {dollar : Option Var} (sc : Scatter)
    {ts : List (ℕ×ℕ)} {surplus avail a a' : ℕ} {l : List Var}
    (h : CodeDefaults s.T s.v d saved sc ts a a') (ha : 2 ≤ a)
    (hl : (shares surplus avail sc).sum ≤ l.length) {st : List Var} {f : Frame σ} {t : Var}
    (hd : Sits d saved dollar st) (hf : f.Clean) :
    s.Ends ⟨if entry sc (pieces (shares surplus avail sc) l) ts = 0 then a'
        else entry sc (pieces (shares surplus avail sc) l) ts, st, f.regs t⟩ st
      (fun _ => Setting.Quiet a' st)
      (evalDefaults s.host dollar sc (pieces (shares surplus avail sc) l) f) := by
  cases sc with
  | nil => exact .pure ⟨hf, t, rfl⟩
  | cons kind id e next =>
    cases kind with
    | optional =>
      cases e with
      | none =>
        cases avail with
        | zero | succ avail =>
          obtain ⟨rest, rfl, hnext⟩ := h
          rw [shares, List.sum_cons] at hl
          exact enter_ends next hnext ha (by rw [List.length_drop]; omega) hd hf
      | some e =>
        obtain ⟨rest, b, c, x, rfl, he, hput, hpop, hnext⟩ := h
        cases avail with
        | zero =>
          have hentry : entry (.cons .optional id (.some e) next)
              (pieces (shares surplus 0 (.cons .optional id (.some e) next)) l) ((id, a)::rest)
                = a := rfl
          rw [hentry, if_neg (by omega)]
          exact ends_default hput hpop (expr_ends e he hd hf)
            fun g t hg => fall_ends next hnext hd hg
        | succ avail =>
          have hle : a ≤ x := ((codeExpr_lt e he).trans (hput.lt.trans hpop.lt)).le
          rw [shares, List.sum_cons] at hl
          cases l with
          | nil =>
            rw [List.length_nil] at hl
            omega
          | cons w l =>
            rw [List.length_cons] at hl
            exact enter_ends (l := l) next hnext (ha.trans hle) (by omega) hd hf
    | required | rest =>
      obtain ⟨rest, rfl, hnext⟩ := h
      rw [shares, List.sum_cons] at hl
      exact enter_ends next hnext ha (by rw [List.length_drop]; omega) hd hf
end

/-- Where a vector has the code of an expression, the machine gets from any stack of the right depth
to the value that the evaluation gives, on top of that stack and with the same variables and the
same rest of the server, unless an `OP_POP` behind the code has been taken along; or it raises the
error that the evaluation raises, and nothing above that stack handles it. -/
theorem expression_preserved (s : Setting σ) {d : ℕ} {saved : Option ℕ} {dollar : Option Var}
    {e : Expr} {a a' : ℕ} (h : CodeExpr s.T s.v d saved e a a') {st : List Var} {f : Frame σ}
    (hd : Sits d saved dollar st) (hf : f.Clean) (t : Var) :
    (∀ w g, evalExpr s.host dollar e f = .ok (.value w g) → ∃ t',
      Advances s.host s.T s.v.bc ⟨a, st, f.regs t⟩ ⟨a', w::st, g.regs t'⟩ ∨
      s.v.bc.vector[a']? = some (Opcode.toByte .pop) ∧
        Advances s.host s.T s.v.bc ⟨a, st, f.regs t⟩ ⟨a'+1, st, g.regs t'⟩) ∧
    (∀ code args g, evalExpr s.host dollar e f = .ok (.raise code args g) →
      ∃ y z m ws t', Advances s.host s.T s.v.bc ⟨a, st, f.regs t⟩ y ∧
        move s.host s.T s.v.bc y = .ok m ∧ Setting.Thrown s.host code args z m ∧
        z.stack = ws++st ∧ z.frame = g.regs t' ∧ Passive code ws) := by
  have hends := expr_ends (t := t) e h hd hf
  constructor
  · intro w g he
    rw [he] at hends
    obtain ⟨y, hy, t', -, -, rfl | ⟨hpop, rfl⟩⟩ := hends
    · exact ⟨t', .inl hy⟩
    · exact ⟨t', .inr ⟨hpop, hy⟩⟩
  · intro code args g he
    rw [he] at hends
    exact hends.raised

end Meaning

/-- A server without objects. -/
def bareHost : Host Unit where
  getProp _ _ w := .ok (.error (.err .invind), w)
  putProp _ _ _ w := .ok (.error (.err .invind), w)
  callVerb _ _ _ w := .ok (.error (.err .invind), w)
  callBiFunc _ _ w := .ok (.error (.err .invarg), w)
  dict _ _ w := .ok (.error (.err .type), w)
  fork _ _ _ _ w := .ok (.error .quota, w)
  report _ _ := []
  catches _ _ := false

theorem answers_error (e : Err) :
    Answers (fun w => .ok (.error (.err e), w) : Call Unit) := by
  intro w r w' h
  obtain ⟨rfl, -⟩ := Prod.mk.inj (Except.ok.inj h)
  refine ⟨fun v hv => ?_, fun c hc => ?_⟩
  · cases hv
  · cases hc
    trivial

theorem bareHost_sound : bareHost.Sound where
  getProp _ _ := answers_error _
  putProp _ _ _ := answers_error _
  callVerb _ _ _ := answers_error _
  callBiFunc _ _ := answers_error _
  dict _ _ := answers_error _
  report _ _ v hv := by cases hv

def fourSetting : Setting Unit where
  host := bareHost
  T := ⟨[], []⟩
  v := fourVec
  sound := bareHost_sound
  literals x hx := by cases hx
  short := by simp [fourVec]

/-- The list `{5}` in variable 24. -/
def fiveFrame : Frame Unit := ⟨fun id => if id = 24 then .list [.int 5] else .none, ()⟩

theorem fiveFrame_clean : fiveFrame.Clean := by
  intro id
  unfold fiveFrame
  dsimp only
  split <;> simp [unmarked, unmarkedList]

theorem expression_preserved_scatter :
    ∃ t', @Advances Unit noFloats bareHost ⟨[], []⟩ fourVec.bc ⟨0, [], fiveFrame.regs .none⟩
        ⟨18, [.list [.int 5]], (((fiveFrame.set 20 (.int 5)).set 23 (.list [])).set 21
          (.int 7)).regs t'⟩ ∨
      fourVec.bc.vector[18]? = some (Opcode.toByte .pop) ∧
        @Advances Unit noFloats bareHost ⟨[], []⟩ fourVec.bc ⟨0, [], fiveFrame.regs .none⟩
          ⟨19, [], (((fiveFrame.set 20 (.int 5)).set 23 (.list [])).set 21 (.int 7)).regs t'⟩ := by
  have hsits : Sits 0 none none [] := ⟨rfl, fun i hi => by cases hi⟩
  exact (@expression_preserved Unit noFloats fourSetting 0 none none _ 0 18 fourVec_code [] fiveFrame
    hsits fiveFrame_clean .none).1 _ _ rfl

end LambdaMoo.Run
