import LambdaMoo.StatementSteps

/-!
# Compiled statements

Where a vector has the code of a statement, the machine does what the
behaviour of the statement says, loops and handlers included; a whole vector
leaves its activation as the behaviour of its statements says.
-/

set_option autoImplicit false

namespace LambdaMoo.Run
open LambdaMoo.Execute LambdaMoo.CodeGen

section Statements
variable {σ : Type} [FloatOps]

section Trees
variable {p : Program σ}

theorem ends_forkBody {id : Option ℕ} {body : Stmts} {vector : Finished} {n d a a' : ℕ}
    {loops : List LoopAt} {w : Var} {st : List Var} {f : Frame σ} {t : Var}
    (hi : p.v.instr d (.fork n id) a a') (hv : p.T.forkVectors[n]? = some vector)
    (hc : Compiled p.T body vector) (hf : f.Clean) :
    p.Ends ⟨a, w::st, f.regs t⟩ st (p.Ways loops a' st) (forkBody p.host p.forkTree id body w f) := by
  cases w with
  | int delay =>
    by_cases hneg : delay.toInt < 0
    · have hstep : fork p.host n id ⟨a', .int delay::st, f.regs t⟩ =
          .ok (.raise (.err .invarg) ⟨a', st, f.regs t⟩) := by
        simp only [fork, if_pos hneg]
        rfl
      rw [forkBody, if_pos hneg]
      exact ends_raise (s := p.toSetting) (k := a') [] hi hstep (by simp) hf
    · have hstep : fork p.host n id ⟨a', .int delay::st, f.regs t⟩ =
          forkTask n id delay p.host ⟨a', st, f.regs t⟩ := by
        simp only [fork, if_neg hneg]
      rw [forkTask] at hstep
      rw [forkBody, if_neg hneg, startTask, ← p.forks n vector body hv hc]
      cases hr : p.host.fork n delay id f.env f.world with
      | error e => trivial
      | ok r =>
        obtain ⟨r, world⟩ := r
        change _ = (p.host.fork n delay id f.env f.world >>= _) at hstep
        rw [hr] at hstep
        cases r with
        | ok task =>
          cases id with
          | none => exact ⟨_, adv_one hi hstep, hf, t, rfl⟩
          | some id =>
            have hset : (Frame.set ⟨f.env, world⟩ id (.int task) : Frame σ).Clean :=
              Frame.Clean.set hf trivial
            exact ⟨_, adv_one hi hstep, hset, t, rfl⟩
        | error e =>
          refine ⟨unmarked_raised trivial, hf, _, ⟨a', st, Frame.regs ⟨f.env, world⟩ t⟩, _, [], t,
            .refl, ?_, .raise rfl, rfl, rfl, .nil⟩
          rw [move, hi.1]
          exact hstep
  | _ => exact ends_raise (s := p.toSetting) (k := a') [] hi rfl (by simp) hf

theorem excepts_none (n : ℕ) (arms : ExceptArms) {codes : List Var} {hs : List ℕ} {code : Var}
    {args : List Var} (hlen : codes.length = arms.length) (hh : hs.length = arms.length)
    (hf : (armsOf codes hs).find? (fun arm => handles code arm.1) = none) :
    evalExcepts p.host p.forkTree n arms codes code args = Eval.reraise code args := by
  cases arms with
  | nil => rw [evalExcepts]; simp
  | cons id c stmt next =>
    cases codes with
    | nil => cases hlen
    | cons v vs =>
      cases hs with
      | nil => cases hh
      | cons h hs =>
        by_cases hhere : handles code v = true
        · rw [find_armsOf_here hhere] at hf
          cases hf
        · rw [find_armsOf_there hhere] at hf
          rw [evalExcepts, if_neg hhere]
          exact excepts_none n next (Nat.succ.inj hlen) (Nat.succ.inj hh) hf

omit [FloatOps] in
/-- The end of the body of a `try` takes the handlers off. -/
theorem endHandlers_arms {arms : List (Var×Num)} {label : ℕ} {st : List Var} {a : Activ (Regs σ)}
    (hl : arms.length < 2^64) : endHandlers label [] a ((Group.catch arms).vars++st) =
      .ok (.next { a with pc := label, stack := st }) := by
  obtain ⟨hle, -, hdrop⟩ := arms_split arms st hl
  rw [Group.vars, List.cons_append, endHandlers, if_pos hle, hdrop]
  rfl

/-- What the loops keep lies below. -/
def Below (loops : List LoopAt) (d : ℕ) : Prop := ∀ l ∈ loops, l.topStack ≤ d ∧ l.bottomStack ≤ d

omit [FloatOps] in
theorem Below.mono {loops : List LoopAt} {d d' : ℕ} (h : Below loops d) (hd : d ≤ d') :
    Below loops d' := fun l hl => ⟨(h l hl).1.trans hd, (h l hl).2.trans hd⟩

omit [FloatOps] in
theorem Below.enter {loops : List LoopAt} {l : LoopAt} {d : ℕ} (h : Below loops d)
    (ht : l.topStack ≤ d) (hb : l.bottomStack ≤ d) : Below (l::loops) d := by
  intro l' hl
  rcases List.mem_cons.mp hl with rfl | hl
  · exact ⟨ht, hb⟩
  · exact h l' hl

/-- Binding the variable of an arm, and getting rid of what it is bound to. -/
theorem armId_adv {id : Option ℕ} {d a b c : ℕ} {w : Var} (st : List Var) {f : Frame σ} (t : Var)
    (hid : CodeArmId p.v d id a b) (hpop : p.v.instr d .pop b c) (hw : unmarked w) (hf : f.Clean) :
    ∃ g, g.Clean ∧ p.Adv ⟨a, w::st, f.regs t⟩ ⟨c, st, g.regs t⟩ ∧
      ∀ (m : Eval σ Way), ((id.elim (return ()) fun id => Eval.setVar id w : Eval σ Unit) >>=
        fun _ => m) f = m g := by
  cases id with
  | none =>
    obtain rfl : a = b := hid
    exact ⟨f, hf, adv_one hpop rfl, fun m => rfl⟩
  | some id => exact ⟨f.set id w, hf.set hw, adv_steps (put_pop hid hpop), fun m => rfl⟩

omit [FloatOps] in
theorem armId_short {id : Option ℕ} {d a b c : ℕ} (hid : CodeArmId p.v d id a b)
    (hpop : p.v.instr d .pop b c) : a < p.v.bc.vector.length := by
  cases id with
  | none =>
    obtain rfl : a = b := hid
    exact instr_short hpop
  | some id => exact instr_short hid

mutual
/-- Where the code of a statement is, the machine brings about what its behaviour says. -/
theorem stmt_ends (n : ℕ) (stmt : Stmt) {d : ℕ} {loops : List LoopAt} {a a' : ℕ}
    (h : CodeStmt p.T p.v d loops stmt a a') {st : List Var} {f : Frame σ} {t : Var}
    (hd : st.length = d) (ho : Orderly st) (hl : Below loops d) (hf : f.Clean) :
    p.Ends ⟨a, st, f.regs t⟩ st (p.Ways loops a' st) (evalStmt p.host p.forkTree n stmt f) := by
  have hsits : Sits d none none st := ⟨hd, fun i hi => by cases hi⟩
  cases stmt with
  | cond arms otherwise =>
    obtain ⟨b, harms, hother⟩ := h
    rw [evalStmt]
    exact arms_ends n arms harms (fun f t hf => stmts_ends n otherwise hother hd ho hl hf) hd ho hl hf
  | list id expr body =>
    obtain ⟨b, c, x, y, hexpr, hnum, hfor, hbody, hjump⟩ := h
    rw [evalStmt]
    refine (expr_ends expr hexpr hsits hf).bind fun v g z hz => ?_
    obtain ⟨t', hv, hg, rfl⟩ := hz.top (starts_of_instr hnum (by simp))
    have hstep : p.Adv ⟨b, v::st, g.regs t'⟩ ⟨c, .int 1::v::st, g.regs t'⟩ := adv_one hnum rfl
    refine Setting.Ends.before hstep ?_
    have hloop : p.Ends ⟨c, .int 1::v::st, g.regs t'⟩ st (p.Ways loops a' st)
        ((elements p.host v >>= overValues id (evalStmts p.host p.forkTree n body)) g) := by
      cases v with
      | list l =>
        rw [elements]
        by_cases hshort : l.length < 2^31
        · rw [if_pos hshort]
          refine ends_forList (l := ⟨l, hshort⟩) hfor hjump hv (fun k f t hf => ?_) hg
          rw [hd]
          refine stmts_ends n body hbody (by simp [listCells, hd]) ?_ ?_ hf
          · have hcells : Orderly ([.int (BitVec.ofNat 64 (k+2)), .list l]++st) :=
              ho.values (by simpa [unmarked] using hv)
            exact hcells
          · exact (hl.mono (Nat.le_add_right d 2)).enter (Nat.le_refl _) (Nat.le_add_right d 2)
        · rw [if_neg hshort]
          trivial
      | _ => exact ends_raise (s := p.toSetting) (k := a') [] hfor rfl (by simp) hg
    exact hloop
  | range id lo hi body =>
    obtain ⟨b, c, x, y, hlo, hhi, hfor, hbody, hjump⟩ := h
    rw [evalStmt]
    refine (expr_ends lo hlo hsits hf).bind fun v g z hz => ?_
    obtain ⟨t', hv, hg, rfl⟩ := hz.top (starts_expr _ hhi)
    refine ((expr_ends _ hhi (hsits.push v) hg).operand hv).bind fun w g z hz => ?_
    obtain ⟨t', hw, hg, rfl⟩ := hz.top (starts_of_instr hfor (by simp))
    have hbounds : ∀ (mk : Num → Var) (m k : Num), mk = Var.int ∨ mk = Var.obj →
        p.Ends ⟨c, mk k::mk m::st, g.regs t'⟩ st (p.Ways loops a' st)
          (overValues id (evalStmts p.host p.forkTree n body) (rangeValues mk m k) g) := by
      intro mk m k hmk
      refine ends_forRange hmk hfor hjump (fun i f t hf => ?_) hg
      rw [hd]
      refine stmts_ends n body hbody (by rw [length_rangeCells, hd]) ?_ ?_ hf
      · obtain ⟨us, hus, -, hun⟩ := rangeCells_split hmk m k i
        rw [hus]
        exact ho.values hun
      · exact (hl.mono (Nat.le_add_right d 2)).enter (Nat.le_refl _) (Nat.le_add_right d 2)
    have herror : forRange id a' ⟨x, w::v::st, g.regs t'⟩ =
          .ok (.raise .type ⟨a', st, g.regs t'⟩) →
        bounds p.host v w = Eval.raise p.host (.err .type) →
        p.Ends ⟨c, w::v::st, g.regs t'⟩ st (p.Ways loops a' st)
          ((bounds p.host v w >>= overValues id (evalStmts p.host p.forkTree n body)) g) := by
      intro hstep he
      rw [he]
      exact ends_raise (s := p.toSetting) (k := a') [] hfor (congrArg moveOf hstep) (by simp) hg
    cases v with
    | int m =>
      cases w with
      | int k => exact hbounds .int m k (.inl rfl)
      | _ => exact herror rfl rfl
    | obj m =>
      cases w with
      | obj k => exact hbounds .obj m k (.inr rfl)
      | _ => exact herror rfl rfl
    | _ => cases w <;> exact herror rfl rfl
  | «while» id condition body =>
    obtain ⟨b, c, x, hcond, htest, hbody, hjump⟩ := h
    subst hd
    rw [evalStmt]
    exact ends_while n (fun f t hf => expr_ends condition hcond hsits hf) htest
      (fun f t hf => stmts_ends n body hbody rfl ho (hl.enter (Nat.le_refl _) (Nat.le_refl _)) hf)
      hjump hf
  | fork id time body =>
    obtain ⟨b, k, vector, htime, hfork, hvector, hcompiled⟩ := h
    rw [evalStmt]
    refine (expr_ends time htime hsits hf).bind fun v g z hz => ?_
    obtain ⟨t', hv, hg, rfl⟩ := hz.top (starts_of_instr hfork (by simp))
    exact ends_forkBody hfork hvector hcompiled hg
  | expr expr =>
    obtain ⟨b, hexpr, hpop⟩ := h
    rw [evalStmt]
    refine (expr_ends expr hexpr hsits hf).bind fun v g z hz => ?_
    obtain ⟨t', hv, hg, rfl | ⟨hbyte, rfl⟩⟩ := hz
    · exact ⟨_, adv_one hpop rfl, hg, t', rfl⟩
    · have := (fetch_pop hbyte).symm.trans hpop.1
      simp only [Option.some.injEq, Prod.mk.injEq, true_and] at this
      rw [this]
      exact .pure ⟨hg, t', rfl⟩
  | «return» expr =>
    cases expr with
    | none =>
      rw [evalStmt]
      refine .pure ⟨trivial, hf, ⟨a', st, f.regs t⟩, [], t, ?_, rfl, rfl, .nil⟩
      rw [move, h.1]
      rfl
    | some expr =>
      obtain ⟨b, hexpr, hreturn⟩ := h
      rw [evalStmt]
      refine (expr_ends expr hexpr hsits hf).bind fun v g z hz => ?_
      obtain ⟨t', hv, hg, rfl⟩ := hz.top (starts_of_instr hreturn (by simp))
      refine .pure ⟨hv, hg, ⟨a', st, g.regs t'⟩, [], t', ?_, rfl, rfl, .nil⟩
      rw [move, hreturn.1]
      rfl
  | tryExcept body excepts =>
    obtain ⟨hs, b, c, x, y, hcodes, htry, hbody, hend, hexcepts⟩ := h
    rw [evalStmt]
    refine (handlers_ends excepts hcodes hd hf).bind fun codes g z hz => ?_
    obtain ⟨hlen, hun, hg, t', rfl⟩ := hz
    have hhs := handlers_length hcodes
    have harms : (armsOf codes hs).length = excepts.length := by
      simp [armsOf, hlen, hhs]
    have hsmall : (armsOf codes hs).length < 2^64 := by
      have : excepts.length < 256 := Bytecodes.fetch_narrow htry.1
      omega
    have hcode : ∀ arm ∈ armsOf codes hs, unmarked arm.1 := by
      intro arm harm
      exact hun _ (List.of_mem_zip harm).1
    have hpush : p.Adv ⟨b, (armVars (armsOf codes hs)).reverse++st, g.regs t'⟩
        ⟨c, (Group.catch (armsOf codes hs)).vars++st, g.regs t'⟩ := by
      rw [Group.vars, harms]
      exact adv_one htry rfl
    have hdepth : ((Group.catch (armsOf codes hs)).vars++st).length = d+2*excepts.length+1 := by
      rw [Group.vars, List.length_append, List.length_cons, List.length_reverse, armVars_length,
        harms, hd]
      omega
    refine ((stmts_ends n body hbody hdepth (ho.handlers hsmall hcode)
      (hl.mono (by omega)) hg).before hpush).handle (fun way g z hz => ?_)
      fun code args g hr => ?_
    · by_cases hfall : way = .fall
      · subst hfall
        obtain ⟨hg, t', rfl⟩ := hz
        exact ⟨_, adv_one hend (endHandlers_arms hsmall), hg, t', rfl⟩
      · exact ⟨z, .refl, ways_below hz hfall (passes_arms (by simp) hcode)
          (passes_arms (by simp) hcode)⟩
    · cases hfind : (armsOf codes hs).find? (fun arm => handles code arm.1) with
      | none =>
        rw [excepts_none n excepts hlen hhs hfind]
        exact Setting.Raises.below hr (passive_arms _ hsmall hcode hfind)
      | some arm =>
        obtain ⟨hargs, hg, z, z', m, ws, t', hz, hm, ht, hstack, hframe, hp⟩ := hr
        have hcaught := advance_caught _ hm ht hstack hp hsmall hfind
        rw [hframe] at hcaught
        exact (excepts_ends n excepts hexcepts hlen hhs hfind hd ho hl
          (unmarked_list.mpr hargs) hg).before (hz.tail hcaught)
  | tryFinally body handler =>
    obtain ⟨b, c, x, y, htry, hbody, hend, hhandler, hcont⟩ := h
    rw [evalStmt]
    have hx : x < 2^64 := narrow_lt (Bytecodes.fetch_narrow htry.1) p.labels
    have hpush : p.Adv ⟨a, st, f.regs t⟩ ⟨b, .finally (BitVec.ofNat 64 x)::st, f.regs t⟩ :=
      adv_one htry rfl
    refine (ends_finally hx ho (by rw [hd]; exact hl) hend hcont
      (stmts_ends n body hbody (by rw [List.length_cons, hd]) (ho.finally _)
        (hl.mono (Nat.le_succ d)) hf) ?_).before hpush
    intro u v g t hu hv hg
    exact stmts_ends n handler hhandler (by simp [hd]) (ho.values (by simp [hu, hv]))
      (hl.mono (by omega)) hg
  | «break» exit =>
    obtain ⟨l, hfind, hexit⟩ := h
    have hwide := Bytecodes.fetch_narrow hexit.1
    rw [evalStmt]
    refine .pure ⟨l, hfind, narrow_lt hwide.1 p.depths, narrow_lt hwide.2 p.labels, hf,
      ⟨a', st, f.regs t⟩, [], t, ?_, rfl, rfl, .nil⟩
    rw [move, hexit.1]
    rfl
  | «continue» exit =>
    obtain ⟨l, hfind, hexit⟩ := h
    have hwide := Bytecodes.fetch_narrow hexit.1
    rw [evalStmt]
    refine .pure ⟨l, hfind, narrow_lt hwide.1 p.depths, narrow_lt hwide.2 p.labels, hf,
      ⟨a', st, f.regs t⟩, [], t, ?_, rfl, rfl, .nil⟩
    rw [move, hexit.1]
    rfl
theorem stmts_ends (n : ℕ) (ss : Stmts) {d : ℕ} {loops : List LoopAt} {a a' : ℕ}
    (h : CodeStmts p.T p.v d loops ss a a') {st : List Var} {f : Frame σ} {t : Var}
    (hd : st.length = d) (ho : Orderly st) (hl : Below loops d) (hf : f.Clean) :
    p.Ends ⟨a, st, f.regs t⟩ st (p.Ways loops a' st) (evalStmts p.host p.forkTree n ss f) := by
  cases ss with
  | nil =>
    obtain rfl : a = a' := h
    rw [evalStmts]
    exact .pure ⟨hf, t, rfl⟩
  | cons stmt next =>
    obtain ⟨b, hstmt, hnext⟩ := h
    rw [evalStmts]
    refine (stmt_ends n stmt hstmt hd ho hl hf).bind fun way g z hz => ?_
    have hout : way ≠ .fall → p.Ends z st (p.Ways loops a' st) ((pure way : Eval σ Way) g) :=
      fun hw => .pure (ways_out hz hw)
    cases way with
    | fall =>
      obtain ⟨hg, t', rfl⟩ := hz
      exact stmts_ends n next hnext hd ho hl hg
    | «return» v => exact hout (by simp)
    | «break» exit => exact hout (by simp)
    | «continue» exit => exact hout (by simp)
theorem arms_ends (n : ℕ) (arms : CondArms) {d : ℕ} {loops : List LoopAt} {op : TestOp}
    {a a' b : ℕ} {otherwise : Eval σ Way} {st : List Var} {f : Frame σ} {t : Var}
    (h : CodeArms p.T p.v d loops op a' arms a b)
    (hk : ∀ f t, Frame.Clean f → p.Ends ⟨b, st, f.regs t⟩ st (p.Ways loops a' st) (otherwise f))
    (hd : st.length = d) (ho : Orderly st) (hl : Below loops d) (hf : f.Clean) :
    p.Ends ⟨a, st, f.regs t⟩ st (p.Ways loops a' st)
      (evalArms p.host p.forkTree n arms otherwise f) := by
  cases arms with
  | nil =>
    obtain rfl : a = b := h
    rw [evalArms]
    exact hk f t hf
  | cons condition stmt next =>
    obtain ⟨b, c, x, y, hcond, htest, hstmt, hjump, hnext⟩ := h
    have hsits : Sits d none none st := ⟨hd, fun i hi => by cases hi⟩
    rw [evalArms]
    refine (expr_ends condition hcond hsits hf).bind fun v g z hz => ?_
    obtain ⟨t', hv, hg, rfl⟩ := hz.top (starts_of_instr htest (by simp))
    have hstep : p.Adv ⟨b, v::st, g.regs t'⟩ _ := adv_one htest rfl
    by_cases hv' : isTrue v = true
    · rw [if_pos hv'] at hstep ⊢
      exact ((stmts_ends n stmt hstmt hd ho hl hg).before hstep).onward
        fun way g z hz => ways_jump hjump hz
    · rw [if_neg hv'] at hstep ⊢
      exact (arms_ends n next hnext hk hd ho hl hg).before hstep
theorem excepts_ends (n : ℕ) (arms : ExceptArms) {d : ℕ} {loops : List LoopAt} {hs : List ℕ}
    {a a' : ℕ} {codes st args : List Var} {code : Var} {arm : Var×Num} {f : Frame σ} {t : Var}
    (h : CodeExcepts p.T p.v d loops a' arms hs a a') (hlen : codes.length = arms.length)
    (hh : hs.length = arms.length)
    (hfind : (armsOf codes hs).find? (fun arm => handles code arm.1) = some arm)
    (hd : st.length = d) (ho : Orderly st) (hl : Below loops d) (hw : unmarked (.list (code::args)))
    (hf : f.Clean) : p.Ends ⟨arm.2.toNat, .list (code::args)::st, f.regs t⟩ st
      (p.Ways loops a' st) (evalExcepts p.host p.forkTree n arms codes code args f) := by
  cases arms with
  | nil =>
    cases codes with
    | nil => cases hfind
    | cons v vs => cases hlen
  | cons id c stmt next =>
    cases codes with
    | nil => cases hlen
    | cons v vs =>
      cases hs with
      | nil => cases hh
      | cons h' hs =>
        obtain ⟨b, x, y, hhead, hid, hpop, hstmt, hnext⟩ := h
        obtain rfl : h' = a := Option.some.inj hhead
        rw [evalExcepts]
        by_cases hhere : handles code v = true
        · rw [find_armsOf_here hhere] at hfind
          obtain rfl := Option.some.inj hfind
          have hto : (BitVec.ofNat 64 h').toNat = h' := by
            rw [BitVec.toNat_ofNat, Nat.mod_eq_of_lt ((armId_short hid hpop).trans p.short)]
          obtain ⟨g, hg, hadv, hbind⟩ := armId_adv st t hid hpop hw hf
          rw [if_pos hhere, hbind, hto]
          refine ((stmts_ends n stmt hstmt hd ho hl hg).before hadv).onward fun way g z hz => ?_
          cases next with
          | nil =>
            obtain rfl : y = a' := hnext
            exact ⟨z, .refl, hz⟩
          | cons id' c' stmt' next' =>
            obtain ⟨e, hjump, -⟩ := hnext
            exact ways_jump hjump hz
        · rw [if_neg hhere]
          rw [find_armsOf_there hhere] at hfind
          have hlen' := Nat.succ.inj hlen
          have hh' := Nat.succ.inj hh
          cases next with
          | nil =>
            obtain rfl := List.eq_nil_of_length_eq_zero hlen'
            cases hfind
          | cons id' c' stmt' next' =>
            obtain ⟨e, -, hrest⟩ := hnext
            exact excepts_ends n (.cons id' c' stmt' next') hrest hlen' hh' hfind hd ho hl hw hf
end

section Vectors
variable (p : Program σ) {ss : Stmts} {g g' : GState} {vector : Finished}
  (hs : ss.accepts [] = true) (hcode : stmtToCode ss g = .ok (vector, g'))
  (hlit : g'.literals <+: p.T.literals) (hforks : g'.forkVectors <+: p.T.forkVectors)
  (hfits : Fits vector) (hv : p.v = vector.vec) (n : ℕ) {f f' : Frame σ} (hf : f.Clean) (t : Var)
include hs hcode hlit hforks hfits hv hf

theorem program_returns {way : Way} (he : evalStmts p.host p.forkTree n ss f = .ok (.value way f')) :
    ∃ v y z t', (way = .fall ∧ v = zero ∨ way = .return v) ∧
      Advances p.host p.T vector.bc ⟨0, [], f.regs t⟩ y ∧
      advance p.host p.T vector.bc y = .ok (.leave .return v z) ∧ z.frame = f'.regs t' := by
  obtain ⟨a, hstmts, hdone⟩ := stmtToCode_vector hs hcode hlit hforks hfits
  have hbc : p.v.bc = vector.bc := by rw [hv]; rfl
  rw [← hv] at hstmts hdone
  have hends := stmts_ends (t := t) n ss hstmts rfl orderly_nil (fun l hl => by cases hl) hf
  rw [he] at hends
  rw [← hbc]
  obtain ⟨y, hy, hway⟩ := hends
  cases way with
  | fall =>
    obtain ⟨hf', t', rfl⟩ := hway
    have hunwinds : p.Unwinds .return zero [] f' ⟨a, [], f'.regs t'⟩ := by
      refine ⟨hf', ⟨p.v.bc.size, [], f'.regs t'⟩, [], t', ?_, rfl, rfl, .nil⟩
      rw [move, hdone.1]
      rfl
    obtain ⟨z, t', hz, hframe⟩ := advance_return hunwinds
    exact ⟨zero, _, z, t', .inl ⟨rfl, rfl⟩, hy, hz, hframe⟩
  | «return» v =>
    obtain ⟨z, t', hz, hframe⟩ := advance_return hway.2
    exact ⟨v, y, z, t', .inr rfl, hy, hz, hframe⟩
  | «break» exit | «continue» exit =>
    obtain ⟨l, hl, -⟩ := hway
    exact absurd (findLoopAt_mem hl) List.not_mem_nil

theorem program_raises {code : Var} {args : List Var}
    (he : evalStmts p.host p.forkTree n ss f = .ok (.raise code args f')) :
    ∃ y z t', Advances p.host p.T vector.bc ⟨0, [], f.regs t⟩ y ∧ z.frame = f'.regs t' ∧
      (advance p.host p.T vector.bc y = .ok (.leave .raise (.list (code::args)) z) ∨
        advance p.host p.T vector.bc y = .ok (.leave .uncaught zero z)) := by
  obtain ⟨a, hstmts, -⟩ := stmtToCode_vector hs hcode hlit hforks hfits
  have hbc : p.v.bc = vector.bc := by rw [hv]; rfl
  rw [← hv] at hstmts
  have hends := stmts_ends (t := t) n ss hstmts rfl orderly_nil (fun l hl => by cases hl) hf
  rw [he] at hends
  rw [← hbc]
  obtain ⟨hargs, hf', y, z, m, ws, t', hy, hm, ht, hz, hframe, hp⟩ := hends
  obtain ⟨z', hz', h⟩ := advance_thrown hm ht hz hp
  exact ⟨y, z', t', hy, hz'.trans hframe, h⟩

end Vectors

/-- A vector that the generator has made, on an empty stack: when the behaviour of its statements
comes to an end, the machine leaves the activation with what they return, or zero, or with the
error that they raise, and with the same variables and the same rest of the server. -/
theorem program_preserved (p : Program σ) {ss : Stmts} {g g' : GState} {vector : Finished}
    (hs : ss.accepts [] = true) (hcode : stmtToCode ss g = .ok (vector, g'))
    (hlit : g'.literals <+: p.T.literals) (hforks : g'.forkVectors <+: p.T.forkVectors)
    (hfits : Fits vector) (hv : p.v = vector.vec) (n : ℕ) {f : Frame σ} (hf : f.Clean) (t : Var) :
    (∀ way f', evalStmts p.host p.forkTree n ss f = .ok (.value way f') →
      ∃ v y z t', (way = .fall ∧ v = zero ∨ way = .return v) ∧
        Advances p.host p.T vector.bc ⟨0, [], f.regs t⟩ y ∧
        advance p.host p.T vector.bc y = .ok (.leave .return v z) ∧ z.frame = f'.regs t') ∧
    (∀ code args f', evalStmts p.host p.forkTree n ss f = .ok (.raise code args f') →
      ∃ y z t', Advances p.host p.T vector.bc ⟨0, [], f.regs t⟩ y ∧ z.frame = f'.regs t' ∧
        (advance p.host p.T vector.bc y = .ok (.leave .raise (.list (code::args)) z) ∨
          advance p.host p.T vector.bc y = .ok (.leave .uncaught zero z))) := by
  constructor
  · intro way f' he
    exact program_returns p hs hcode hlit hforks hfits hv n hf t he
  · intro code args f' he
    exact program_raises p hs hcode hlit hforks hfits hv n hf t he

end Trees

end Statements

/-- `try return 7; finally x = 8; endtry`, with `x` in variable 20. -/
def sevenFinally : Stmts :=
  .cons (.tryFinally (.cons (.return (some (.var (.int 7)))) .nil)
    (.cons (.expr (.asgn (.id 20) (.var (.int 8)))) .nil)) .nil

def sevenVector : Finished where
  bc := {
    numbytesLabel := 1
    numbytesLiteral := 1
    numbytesFork := 1
    numbytesVarName := 1
    numbytesStack := 1
    vector := [112, 9, 7, 130, 108, 112, 5, 131, 54, 111, 112, 6, 110]
    size := 13
    maxStack := 3 }
  code := [.byte 112 0, .byte 9 0,
    .label ⟨7, ⟨0, 0, 0, 1, 0⟩, none⟩,
    .byte 130 1, .byte 108 2, .byte 112 1, .byte 5 1, .byte 131 2, .byte 54 3, .byte 111 3,
    .byte 112 2, .byte 6 2, .byte 110 0]

theorem sevenVector_fits : Fits sevenVector := by
  constructor
  · intro n d h
    simp only [sevenVector, List.mem_cons, Cell.byte.injEq, reduceCtorEq, List.not_mem_nil,
      or_false, false_or] at h
    omega
  · intro kind value h
    simp [sevenVector] at h

theorem sevenVector_literals : ∀ x ∈ (⟨[], []⟩ : Tables).literals, unmarked x := by simp

theorem sevenVector_short : sevenVector.vec.bc.vector.length < 2^64 := by
  simp [sevenVector, Finished.vec]

theorem sevenVector_labels : sevenVector.vec.bc.numbytesLabel ≤ 8 := by
  simp [sevenVector, Finished.vec]

theorem sevenVector_depths : sevenVector.vec.bc.numbytesStack ≤ 8 := by
  simp [sevenVector, Finished.vec]

/-- No task is queued. -/
def noTasks : ForkTree Unit := fun _ _ _ _ w => .ok (.error .quota, w)

theorem noTasks_forks : ∀ f vector body, (⟨[], []⟩ : Tables).forkVectors[f]? = some vector →
    Compiled ⟨[], []⟩ body vector → bareHost.fork f = noTasks body := by simp

def sevenProgram : Program Unit where
  host := bareHost
  T := ⟨[], []⟩
  v := sevenVector.vec
  sound := bareHost_sound
  literals := sevenVector_literals
  short := sevenVector_short
  forkTree := noTasks
  forks := noTasks_forks
  labels := sevenVector_labels
  depths := sevenVector_depths

/-- The handler sets the variable, and the return goes on. -/
theorem program_preserved_finally : ∃ v y z t',
    (Way.return (.int 7) = .fall ∧ v = zero ∨ Way.return (.int 7) = .return v) ∧
    @Advances Unit noFloats bareHost ⟨[], []⟩ sevenVector.bc ⟨0, [], fiveFrame.regs .none⟩ y ∧
    @advance Unit noFloats bareHost ⟨[], []⟩ sevenVector.bc y = .ok (.leave .return v z) ∧
    z.frame = (fiveFrame.set 20 (.int 8)).regs t' :=
  (@program_preserved Unit noFloats sevenProgram sevenFinally initGstate initGstate sevenVector
    (by decide) rfl (List.prefix_refl _) (List.prefix_refl _) sevenVector_fits rfl 0 fiveFrame
    fiveFrame_clean .none).1 _ _ rfl

end LambdaMoo.Run
