import LambdaMoo.LoopCode

/-!
# Code of statements

The finished code of a statement list the generator has compiled is the code
of that list.
-/

set_option autoImplicit false

namespace LambdaMoo.CodeGen

section
variable {T : Tables}

mutual
theorem generateStmt_placed (st : Stmt) {s s' : State} {a : Account} {d m : ℕ}
    {frames : List Frame} {P : Exits} (t : Standing s a d m none frames)
    (hs : st.accepts (frames.map (·.id)) = true) (hc : s.num = tally s.entries)
    (hP : Pending s P) (h : generateStmt st s = .ok s') :
    Placed T s s' P fun v φ bottoms =>
      CodeStmt T v d (loopsAt φ bottoms s.loops) st (φ s.numBytes) (φ s'.numBytes) := by
  match st with
  | .cond arms otherwise =>
    simp only [Stmt.accepts, Bool.and_eq_true] at hs
    simp only [generateStmt, bind_ok, pure_ok] at h
    obtain ⟨⟨l, s1⟩, h1, s2, h2, rfl⟩ := h
    have t1 := generateArms_standing arms t hs.1.2 h1
    obtain ⟨P1, S, X1, hL, hS, -, hC1⟩ := generateArms_placed arms .if t hs.1.2 hc hP
      (fun _ _ => rfl) (S := []) rfl (by simp) h1
    obtain ⟨P2, X2, hC2⟩ := generateStmts_placed otherwise t1 hs.2 X1.counted X1.pending h2
    have hL2 : Linked s2.code S l :=
      hL.unchanged (fun p hp => hL.lt hp) fun p hp => X2.keep p hp List.not_mem_nil
    have hS2 : ∀ p ∈ S, P2 p = none := fun p hp => by
      rw [X2.exits p (hL.lt hp), (hS p hp).1]
    have hge : ∀ p ∈ S, s.numBytes ≤ p := fun p hp => by simpa using (hS p hp).2
    have D := defineLabel_extends X2.pending X2.counted hL2 hS2
    have XD := X2.trans D (R := []) (by simp) (by simp)
    refine ⟨P2, (X1.trans XD (by simp) (by simp)).drop (by simpa using hge),
      fun v φ code bottoms hl hA => ?_⟩
    have hp : ∀ k ∈ S, Points code k s2.numBytes := fun k hk =>
      hA.defined ((Grows.refl _ D.counted).extends D.pending) hL2 hk (hS2 k hk) X2.counted (hge k hk)
    rw [defineLabel_numBytes] at hA ⊢
    refine ⟨_, hC1 v φ code bottoms s2.numBytes hl ?_, ?_⟩
    · refine (hA.sub le_rfl X2.le).undefine XD le_rfl (fun p _ hp hpS => ?_) fun p hpS _ _ => ?_
      · rw [List.nil_append] at hpS
        rw [if_neg hpS, X2.exits p hp]
      · rw [List.nil_append] at hpS
        exact ⟨_, if_pos hpS, hp p hpS⟩
    · rw [← loopsAt_outline φ bottoms X1.loops]
      refine hC2 v φ code bottoms hl ((hA.sub X1.le le_rfl).back D le_rfl fun p hp => .inl ?_)
      exact hL.lt hp
  | .list id expr body =>
    simp only [Stmt.accepts, Bool.and_eq_true] at hs
    simp only [generateStmt, bind_ok, pure_ok] at h
    obtain ⟨s1, h1, s2, h2, rfl⟩ := h
    have t1 := generateExpr_standing expr hs.1.2 t h1
    have t1' := ((((t1.op (optimNumToOpcode 1)).push 1).op .forList).varRef id).label none
    have te (top : Label) (bottom : Option ℕ) :
        Standing (enterLoop (some id) top _ bottom _ _) _ _ _ _ _ :=
      t1'.enter (some id) (d+2) d t1'.cur (congrArg (·-2) t1'.cur)
    have G1 := generateExpr_grows expr (.refl s hc) h1
    obtain ⟨P', X, hC⟩ := forLoop_placed (T := T) ((G1.op (optimNumToOpcode 1)).push 1) hP
      (fun _ _ => rfl) id fun P hc hP => generateStmts_placed body (te _ _) hs.2 hc hP h2
    refine ⟨P', X, fun v φ code bottoms hl hA => ?_⟩
    obtain ⟨hS, ci, cs, cj⟩ := hC v φ code bottoms hl hA
    obtain ⟨hb, hS⟩ := hS.push.op G1.le (by simp)
    obtain ⟨c1, -⟩ := generateExpr_code hl expr hs.1.2 t hc h1 hS le_rfl
    have t2 := generateStmts_standing body (te _ _) hs.2 h2
    rw [loopsAt_enter (((((G1.op (optimNumToOpcode 1)).push 1).op .forList).varRef id).label).loops]
      at cs
    have hcur : (pushStack 1 (emitOp (optimNumToOpcode 1) s1)).curStack = d+2 :=
      ((t1.op (optimNumToOpcode 1)).push 1).cur
    simp only [enterLoop_numBytes, addLabel_numBytes, addVarRef_numBytes, emitOp_numBytes,
      pushStack_numBytes, captureLabel_value, t1'.cur, t2.cur, hcur] at ci cs cj
    exact ⟨_, _, _, _, c1, t1.cur ▸ hl.op hb (decode_optimNum _ (by decide)), ci, cs, cj⟩
  | .range id lo hi body =>
    simp only [Stmt.accepts, Bool.and_eq_true] at hs
    simp only [generateStmt, bind_ok, pure_ok] at h
    obtain ⟨s1, h1, s2, h2, s3, h3, rfl⟩ := h
    have t1 := generateExpr_standing lo hs.1.1.2 t h1
    have t2 := generateExpr_standing hi hs.1.2 t1 h2
    have t2' := ((t2.op .forRange).varRef id).label none
    have te (top : Label) (bottom : Option ℕ) :
        Standing (enterLoop (some id) top _ bottom _ _) _ _ _ _ _ :=
      t2'.enter (some id) (d+2) d t2'.cur (congrArg (·-2) t2'.cur)
    have t3 := generateStmts_standing body (te _ _) hs.2 h3
    have G1 := generateExpr_grows lo (.refl s hc) h1
    have G2 := generateExpr_grows hi G1 h2
    obtain ⟨P', X, hC⟩ := forLoop_placed (T := T) G2 hP (fun _ _ => rfl) id
      fun P hc hP => generateStmts_placed body (te _ _) hs.2 hc hP h3
    refine ⟨P', X, fun v φ code bottoms hl hA => ?_⟩
    obtain ⟨hS, ci, cs, cj⟩ := hC v φ code bottoms hl hA
    obtain ⟨c2, hS⟩ := generateExpr_code hl hi hs.1.2 t1 G1.counted h2 hS G1.le
    obtain ⟨c1, -⟩ := generateExpr_code hl lo hs.1.1.2 t hc h1 hS le_rfl
    rw [loopsAt_enter ((G2.op .forRange).varRef id).label.loops] at cs
    simp only [enterLoop_numBytes, addLabel_numBytes, addVarRef_numBytes, emitOp_numBytes,
      captureLabel_value, t2'.cur, t3.cur, t2.cur] at ci cs cj
    exact ⟨_, _, _, _, c1, c2, ci, cs, cj⟩
  | .while id condition body =>
    simp only [Stmt.accepts, Bool.and_eq_true] at hs
    simp only [generateStmt, bind_ok, pure_ok] at h
    obtain ⟨s1, h1, s2, h2, rfl⟩ := h
    have t1 := generateExpr_standing condition hs.1.2 t h1
    have t1' := ((t1.loopTest id).label none).pop 1 d rfl
    have te (top : Label) (bottom : Option ℕ) : Standing (enterLoop id top _ bottom _ _) _ _ _ _ _ :=
      t1'.enter id d d t1'.cur t1'.cur
    have t2 := generateStmts_standing body (te _ _) hs.2 h2
    have G1 := generateExpr_grows condition (.refl s hc) h1
    have Gt := emitLoopTest_grows G1 id
    have htop := (captureLabel_resolved hc).mono (Gt.label.pop 1).entries
    obtain ⟨P', X, hC⟩ := loop_placed (T := T) (Gt.label.pop 1) hP ((Open.nil _).label.pop 1) Gt.le
      htop fun P hP => generateStmts_placed body (te _ _) hs.2 (Gt.label.pop 1).counted hP h2
    refine ⟨P', X, fun v φ code bottoms hl hA => ?_⟩
    obtain ⟨hp, hS, cs, cj⟩ := hC v φ code bottoms hl hA
    obtain ⟨ct, hS⟩ := loopTest_code hl id
      (hS.back ((Grows.refl _ Gt.counted).label.pop 1) le_rfl) G1.le hp
    obtain ⟨c1, -⟩ := generateExpr_code hl condition hs.1.2 t hc h1 hS le_rfl
    rw [loopsAt_enter (Gt.label.pop 1).loops] at cs
    simp only [enterLoop_numBytes, popStack_numBytes, addLabel_numBytes, captureLabel_value, t1'.cur,
      t2.cur, t1.cur] at ct cs cj
    exact ⟨_, _, _, c1, ct, cs, cj⟩
  | .fork id time body =>
    simp only [Stmt.accepts, Bool.and_eq_true] at hs
    simp only [generateStmt, bind_ok, pure_ok] at h
    obtain ⟨s1, h1, s2, h2, ⟨bc, g⟩, h3, rfl⟩ := h
    have t1 := generateExpr_standing time hs.1.2 t h1
    have G1 := generateExpr_grows time (.refl s hc) h1
    have hg := finishVector_gstate h3
    obtain ⟨P2, X2, -⟩ := generateStmts_placed body (initState_standing _) hs.2
      initState_counted (initState_pending _) h2
    have G2 := G1.op (if id.isSome then .forkWithId else .fork)
    have hlit : s1.gstate.literals <+: g.literals := hg ▸ X2.literals
    have hforks : s1.gstate.forkVectors <+: g.forkVectors := hg ▸ X2.forks
    refine .straight hP ((forkId_grows ((G2.tables hlit hforks).fork bc) id).pop 1)
      fun v φ code bottoms hl hS => ?_
    obtain ⟨hbc, hS', hi⟩ := fork_code (s := s1) hl id hS.pop rfl G1.le
    obtain ⟨-, hS1⟩ := (hS'.tables hlit hforks).op G1.le (by simp [State.numBytes, emitOp, emitByte])
    obtain ⟨c1, -⟩ := generateExpr_code hl time hs.1.2 t hc h1 hS1 le_rfl
    refine ⟨_, _, bc, c1, t1.cur ▸ hi, hbc, s1.gstate, g, ?_, hS'.literals, hS'.forks⟩
    simp only [stmtToCode, bind_ok]
    exact ⟨s2, h2, h3⟩
  | .expr expr =>
    simp only [Stmt.accepts] at hs
    simp only [generateStmt, bind_ok, pure_ok] at h
    obtain ⟨s1, h1, rfl⟩ := h
    have t1 := generateExpr_standing expr hs t h1
    have G1 := generateExpr_grows expr (.refl s hc) h1
    refine .straight hP ((G1.op .pop).pop 1) fun v φ code bottoms hl hS => ?_
    obtain ⟨hb, hS⟩ := hS.pop.op G1.le (by simp)
    obtain ⟨c1, -⟩ := generateExpr_code hl expr hs t hc h1 hS le_rfl
    rw [popStack_numBytes, emitOp_numBytes]
    exact ⟨_, c1, t1.cur ▸ hl.op hb fun _ => rfl⟩
  | .return (some expr) =>
    simp only [Stmt.accepts] at hs
    simp only [generateStmt, bind_ok, pure_ok] at h
    obtain ⟨s1, h1, rfl⟩ := h
    have t1 := generateExpr_standing expr hs t h1
    have G1 := generateExpr_grows expr (.refl s hc) h1
    refine .straight hP ((G1.op .return).pop 1) fun v φ code bottoms hl hS => ?_
    obtain ⟨hb, hS⟩ := hS.pop.op G1.le (by simp)
    obtain ⟨c1, -⟩ := generateExpr_code hl expr hs t hc h1 hS le_rfl
    rw [popStack_numBytes, emitOp_numBytes]
    exact ⟨_, c1, t1.cur ▸ hl.op hb fun _ => rfl⟩
  | .return none =>
    rw [generateStmt, Except.ok.injEq] at h
    subst h
    refine .straight hP ((Grows.refl s hc).op .return0) fun v φ code bottoms hl hS => ?_
    rw [emitOp_numBytes] at hS ⊢
    exact t.cur ▸ hl.op (hS.op le_rfl (by omega)).1 fun _ => rfl
  | .tryExcept body excepts =>
    simp only [Stmt.accepts, Bool.and_eq_true] at hs
    simp only [generateStmt, bind_ok, pure_ok] at h
    obtain ⟨⟨labels, s1⟩, h1, s2, h2, ⟨l, s3⟩, h3, rfl⟩ := h
    have t1 := pushHandlers_standing excepts hs.2 t h1
    have t1' := ((t1.extended .tryExcept).byte excepts.length).push 1
    have t2 := generateStmts_standing body t1' hs.1.2 h2
    have t2' := ((t2.extended .endExcept).label none).pop (2*excepts.length+1) d rfl
    obtain ⟨KH, hlen, hge⟩ := pushHandlers_grows excepts (.refl s hc) h1
    have oH := pushHandlers_open excepts hc h1
    have hlt : ∀ k ∈ labels, k < s1.numBytes := fun k hk => by
      obtain ⟨l, hl, -⟩ := oH.2 k hk
      exact (List.getElem?_eq_some_iff.mp hl).1
    have YB := (((Grows.refl s1 KH.counted).extended .tryExcept).byte excepts.length).push 1
    have XB := (((KH.extended .tryExcept).byte excepts.length).push 1).extends hP
    obtain ⟨P2, X2, hC2⟩ := generateStmts_placed body t1' hs.1.2 XB.counted XB.pending h2
    have G2 := (Grows.refl s2 X2.counted).extended .endExcept
    have YE := (G2.label.pop (2*excepts.length+1)).extends X2.pending
    have hle1 := KH.le
    have hle2 := X2.le
    simp only [pushStack_numBytes, emitByte_numBytes, emitExtendedByte_numBytes] at hle2
    obtain ⟨P3, S, X3, hL, hS, hsub, hC3⟩ := generateExcepts_placed excepts t2' hs.2 YE.counted
      YE.pending ((Open.nil _).label.pop _).linked
      (by simpa using X2.pending.unset (by simp)) ((oH.keep YB).extend X2 (by simp) |>.extend YE (by simp)) hlen
      (fun k hk => by
        have := hlt k hk
        refine ⟨?_, by simp; omega⟩
        rw [X2.exits k (by simp; omega), hP.unset (hge k hk)]) h3
    have D := defineLabel_extends X3.pending X3.counted hL fun p hp => (hS p hp).1
    have he := hsub _ List.mem_cons_self
    have hSge : ∀ p ∈ S, s2.numBytes+2 ≤ p := fun p hp => by
      have := (hS p hp).2
      simp at this
      omega
    have ZD := X3.trans D (R := []) (by simp) (by simp)
    have ZE := YE.trans ZD (R := []) (by simp; exact .inr (by simpa using he)) (by simp)
    have Z2 := X2.trans ZE (R := []) (by simp) (by simp)
    have hdef : ∀ p ∈ labels++S, (p < s1.numBytes ∨ s2.numBytes+2 ≤ p) ∧ s.numBytes ≤ p := by
      intro p hp
      rcases List.mem_append.mp hp with hp | hp
      · exact ⟨.inl (hlt p hp), hge p hp⟩
      · have := hSge p hp
        exact ⟨.inr this, by omega⟩
    refine ⟨P3, (XB.trans Z2 (by simp; exact fun p hp => .inl hp) (by simp)).drop
      fun p hp => (hdef p hp).2, fun v φ code bottoms hl hA => ?_⟩
    have hpS : ∀ p ∈ S, Points code p s3.numBytes := fun p hp =>
      hA.defined ((Grows.refl _ D.counted).extends D.pending) hL hp (hS p hp).1 X3.counted
        (by have := hSge p hp; omega)
    have hcell : ∀ p, s.numBytes ≤ p → p < s3.numBytes → P3 p = none → p ∉ S →
        code[p]? = s3.code[p]? := fun p hp hp' hn hpS => by
      rw [hA.cells p hp (by simpa using hp') (by simp [hn]), D.keep p hp' hpS]
    have hle3 := X3.le
    simp only [popStack_numBytes, addLinkedLabel_numBytes, emitExtendedByte_numBytes] at hle3
    have hlabP : ∀ k ∈ labels, P3 k = none := fun k hk => by
      have := hlt k hk
      rw [X3.exits k (by simp; omega), X2.exits k (by simp; omega), hP.unset (hge k hk)]
    obtain ⟨qs, hqs, c3⟩ := hC3 v φ code bottoms s3.numBytes hl
      ((hA.sub (by simp; omega) (by simp)).undefine D le_rfl (fun p _ _ hp => if_neg hp)
        fun p hp _ _ => ⟨_, if_pos hp, hpS p hp⟩)
      (fun k hk => hcell k (hge k hk) (by have := hlt k hk; omega) (hlabP k hk) fun h => by
        have := hSge k h
        have := hlt k hk
        omega)
    have c2 := hC2 v φ code bottoms hl (hA.cut ZE (by simp; omega) le_rfl
      fun p hp => by have := (hdef p hp).1; simp; omega)
    have ZB := (YB.extends (KH.extends hP).pending).trans Z2 (R := []) (by simp) (by simp)
    have hSe : Seg T code s2.numBytes (s2.numBytes+2) (emitExtendedByte .endExcept s2) :=
      ((hA.cut ZD (by omega) (by simp) fun p hp => by
        have := (hdef p hp).1; omega).straight X2.pending le_rfl).pop.back
        (Grows.refl _ G2.counted).label (by simp)
    have hSb : Seg T code s1.numBytes (s1.numBytes+3)
        (emitByte excepts.length (emitExtendedByte .tryExcept s1)) :=
      ((hA.cut Z2 hle1 (by simp) fun p hp => by
        have := (hdef p hp).1; omega).straight hP hle1).push
    have ch := pushHandlers_code hl excepts hs.2 t hc h1 (fun p hp hp' hpl => by
        rw [hA.cells p hp (by simp; omega) (by rw [ZB.exits p hp', hP.unset hp]; rfl),
          ZB.keep p hp' fun h => ?_]
        rcases List.mem_append.mp (show p ∈ labels++S from h) with h | h
        · exact hpl h
        · have := hSge p h
          omega)
      ((hA.cut ZB hle1 le_rfl fun p hp => by
        have := (hdef p hp).1; omega).straight hP hle1) hqs
    obtain ⟨hbe, -⟩ := hSe.extended le_rfl (by simp)
    obtain ⟨hbn, hSb⟩ := hSb.byte (by simp) (by simp)
    obtain ⟨hbt, -⟩ := hSb.extended le_rfl (by simp)
    have hpe := hpS _ he
    have hloops1 : loopsAt φ bottoms s1.loops = loopsAt φ bottoms s.loops :=
      loopsAt_outline φ bottoms XB.loops
    have hloops2 : loopsAt φ bottoms s2.loops = loopsAt φ bottoms s.loops :=
      (loopsAt_outline φ bottoms X2.loops).trans hloops1
    have ht := (hl.decodeExtended hbt).1
    rw [emitExtendedByte_numBytes] at hbn hpe
    simp only [popStack_numBytes, pushStack_numBytes, emitByte_numBytes, addLinkedLabel_numBytes,
      emitExtendedByte_numBytes] at c2 c3
    rw [defineLabel_numBytes]
    refine ⟨_, _, _, _, _, ch, ⟨?_, t1.cur ▸ (hl.decodeExtended hbt).2⟩, hloops1 ▸ c2,
      t2.cur ▸ hl.extendedLabel hbe hpe fun _ => rfl, hloops2 ▸ c3⟩
    rw [ht, Bytecodes.decodeExtended, hl.readByte hbn]
    rfl
  | .tryFinally body handler =>
    simp only [Stmt.accepts, Bool.and_eq_true] at hs
    simp only [generateStmt, bind_ok, pure_ok] at h
    obtain ⟨s1, h1, s2, h2, rfl⟩ := h
    have t0 := (((t.extended .tryFinally).label none).push 1)
    have t1 := generateStmts_standing body t0 hs.1 h1
    have t1' := (((t1.extended .endFinally).pop 1 d rfl).define
      (some (emitExtendedByte .tryFinally s).numBytes)).push 2
    have t2 := generateStmts_standing handler t1' hs.2 h2
    have K := (Grows.refl s hc).extended .tryFinally
    have X0 := (K.label.push 1).extends hP
    obtain ⟨P1, X1, hC1⟩ := generateStmts_placed body t0 hs.1 X0.counted X0.pending h1
    have Y1 := (((Grows.refl s1 X1.counted).extended .endFinally).pop 1).extends X1.pending
    have hk : P1 (emitExtendedByte .tryFinally s).numBytes = none := by
      rw [X1.exits _ (by simp), hP.unset (by simp)]
    have ho := (((Open.nil _).label.push 1).extend X1 (by simp)).extend Y1 (by simp)
    have D := defineLabel_extends Y1.pending Y1.counted ho.linked (by simpa using hk)
    have Y2 := ((Grows.refl _ D.counted).push 2).extends D.pending
    obtain ⟨P2, X2, hC2⟩ := generateStmts_placed handler t1' hs.2 Y2.counted Y2.pending h2
    have Y3 := (((Grows.refl s2 X2.counted).extended .continue).pop 2).extends X2.pending
    have Z := (Y2.trans X2 (R := []) (by simp) (by simp)).trans Y3 (R := []) (by simp) (by simp)
    have ZD := D.trans Z (R := []) (by simp) (by simp)
    have Z1 := Y1.trans ZD (R := []) (by simp) (by simp)
    have Z0 := X1.trans Z1 (R := []) (by simp) (by simp)
    refine ⟨P2, (X0.trans Z0 (by simp) (by simp)).drop (by simp), fun v φ code bottoms hl hA => ?_⟩
    have hle1 := X1.le
    have hle2 := X2.le
    simp only [pushStack_numBytes, popStack_numBytes, defineLabel_numBytes, addLinkedLabel_numBytes,
      emitExtendedByte_numBytes] at hle1 hle2
    have hp := hA.defined Z ho.linked List.mem_cons_self hk Y1.counted (by simp)
    have c1 := hC1 v φ code bottoms hl (hA.cut Z1 X0.le le_rfl (by simp))
    have c2 := hC2 v φ code bottoms hl (hA.cut Y3 (by simp; omega) le_rfl (by simp))
    have hS0 : Seg T code s.numBytes (s.numBytes+2) (emitExtendedByte .tryFinally s) :=
      ((hA.cut Z0 le_rfl (by simp) (by simp)).straight hP le_rfl).push.back
        ((Grows.refl _ K.counted).label) (by simp)
    have hS1 : Seg T code s1.numBytes (s1.numBytes+2) (emitExtendedByte .endFinally s1) :=
      ((hA.cut ZD (by omega) (by simp) (by simp; omega)).straight X1.pending le_rfl).pop
    have hS2 : Seg T code s2.numBytes (s2.numBytes+2) (emitExtendedByte .continue s2) :=
      ((hA.sub (by omega) (by simp)).straight X2.pending le_rfl).pop
    obtain ⟨hb0, -⟩ := hS0.extended le_rfl (by simp)
    obtain ⟨hb1, -⟩ := hS1.extended le_rfl (by simp)
    obtain ⟨hb2, -⟩ := hS2.extended le_rfl (by simp)
    have hloops : loopsAt φ bottoms s1.loops = loopsAt φ bottoms s.loops :=
      loopsAt_outline φ bottoms X1.loops
    simp only [pushStack_numBytes, popStack_numBytes, defineLabel_numBytes, addLinkedLabel_numBytes,
      emitExtendedByte_numBytes] at c1 c2 hp ⊢
    exact ⟨_, _, _, _, t.cur ▸ hl.extendedLabel hb0 hp fun _ => rfl, c1,
      t1.cur ▸ hl.extended hb1 fun _ => rfl, hloops ▸ c2, t2.cur ▸ hl.extended hb2 fun _ => rfl⟩
  | .break exit =>
    obtain ⟨P', X, hC⟩ := generateBreak_placed hP hc h
    exact ⟨P', X, fun v φ code bottoms hl hA => t.cur ▸ hC v φ code bottoms hl hA⟩
  | .continue exit =>
    obtain ⟨P', X, hC⟩ := generateContinue_placed hP hc h
    exact ⟨P', X, fun v φ code bottoms hl hA => t.cur ▸ hC v φ code bottoms hl hA⟩
theorem generateStmts_placed (ss : Stmts) {s s' : State} {a : Account} {d m : ℕ}
    {frames : List Frame} {P : Exits} (t : Standing s a d m none frames)
    (hs : ss.accepts (frames.map (·.id)) = true) (hc : s.num = tally s.entries)
    (hP : Pending s P) (h : generateStmts ss s = .ok s') :
    Placed T s s' P fun v φ bottoms =>
      CodeStmts T v d (loopsAt φ bottoms s.loops) ss (φ s.numBytes) (φ s'.numBytes) := by
  match ss with
  | .nil =>
    rw [generateStmts, Except.ok.injEq] at h
    subst h
    exact .straight hP (.refl s hc) fun _ _ _ _ _ _ => rfl
  | .cons stmt next =>
    simp only [Stmts.accepts, Bool.and_eq_true] at hs
    simp only [generateStmts, bind_ok] at h
    obtain ⟨s1, h1, h2⟩ := h
    have t1 := generateStmt_standing stmt t hs.1 h1
    obtain ⟨P1, X1, hC1⟩ := generateStmt_placed stmt t hs.1 hc hP h1
    obtain ⟨P2, X2, hC2⟩ := generateStmts_placed next t1 hs.2 X1.counted X1.pending h2
    refine ⟨P2, X1.trans X2 (by simp) (by simp), fun v φ code bottoms hl hA => ?_⟩
    refine ⟨_, hC1 v φ code bottoms hl (hA.part X2 le_rfl le_rfl X2.le (by simp)
      fun p _ hp => by rw [X2.exits p hp]), ?_⟩
    rw [← loopsAt_outline φ bottoms X1.loops]
    exact hC2 v φ code bottoms hl (hA.sub X1.le le_rfl)
theorem generateArms_placed (arms : CondArms) {ifOp : Opcode} (op : TestOp)
    {label label' : Option ℕ} {s s' : State} {a : Account} {d m : ℕ} {frames : List Frame} {P : Exits} {S : List ℕ}
    (t : Standing s a d m none frames) (hs : arms.accepts (frames.map (·.id)) = true)
    (hc : s.num = tally s.entries) (hP : Pending s P)
    (hop : ∀ bc pos, Bytecodes.decode bc ifOp pos = bc.withLabel pos (.test op))
    (hL : Linked s.code S label) (hS : ∀ p ∈ S, P p = none)
    (h : generateArms arms ifOp label s = .ok (label', s')) :
    ∃ P' S', Extends s s' P P' [] S' ∧ Linked s'.code S' label' ∧
      (∀ p ∈ S', P' p = none ∧ (p ∈ S ∨ s.numBytes ≤ p)) ∧ (∀ p ∈ S, p ∈ S') ∧
      ∀ v φ code bottoms done, Laid v φ code →
        Agrees T code (fun p => if p ∈ S' then some done else (P' p).map bottoms) s.numBytes
          s'.numBytes s' →
        CodeArms T v d (loopsAt φ bottoms s.loops) op (φ done) arms (φ s.numBytes)
          (φ s'.numBytes) := by
  match arms with
  | .nil =>
    simp only [generateArms, Except.ok.injEq, Prod.mk.injEq] at h
    obtain ⟨rfl, rfl⟩ := h
    have X := (Grows.refl s hc).extends hP
    exact ⟨P, S, ⟨X.entries, X.keep, X.counted, X.loops, X.literals, X.forks, X.exits, X.pending,
      fun p l hp hl => (X.labels p l hp hl).imp_left (by simp)⟩, hL, fun p hp => ⟨hS p hp, .inl hp⟩,
      fun _ hp => hp, fun _ _ _ _ _ _ _ => rfl⟩
  | .cons condition stmt next =>
    simp only [CondArms.accepts, Bool.and_eq_true] at hs
    simp only [generateArms, bind_ok] at h
    obtain ⟨s1, h1, s2, h2, h3⟩ := h
    have t1 := generateExpr_standing condition hs.1.1 t h1
    have t1' := ((t1.op ifOp).label none).pop 1 d rfl
    have t2 := generateStmts_standing stmt t1' hs.1.2 h2
    have t2' := ((t2.op .jump).label label).define (some (emitOp ifOp s1).numBytes)
    have G1 := generateExpr_grows condition (.refl s hc) h1
    have X1 := (((G1.op ifOp).label).pop 1).extends hP
    obtain ⟨P2, X2, hC2⟩ := generateStmts_placed stmt t1' hs.1.2 X1.counted X1.pending h2
    have Y2 := (((Grows.refl s2 X2.counted).op .jump).linkedLabel label).extends X2.pending
    have hk : P2 (emitOp ifOp s1).numBytes = none := by
      rw [X2.exits _ (by simp), hP.unset (G1.op ifOp).le]
    have ho := (((Open.nil _).label.pop 1).extend X2 (by simp)).extend Y2 (by simp)
    have D := defineLabel_extends Y2.pending Y2.counted ho.linked (by simpa using hk)
    have YD := Y2.trans D (R := [(emitOp .jump s2).numBytes]) (by simp) (by simp)
    have ZD := X2.trans YD (R := [(emitOp .jump s2).numBytes]) (by simp) (by simp)
    have hle1 := G1.le
    have hle2 := X2.le
    simp only [popStack_numBytes, addLinkedLabel_numBytes, emitOp_numBytes] at hle2
    have XD := (X1.trans ZD (R := [(emitOp .jump s2).numBytes]) (by simp) (by simp)).drop
      (by simp; omega)
    have hLS : ∀ p ∈ S, p < s.numBytes := fun p hp => hL.lt hp
    have hne : (emitOp .jump s2).numBytes ≠ (emitOp ifOp s1).numBytes := by simp; omega
    have hL' : Linked (defineLabel (some (emitOp ifOp s1).numBytes)
        (addLinkedLabel label (emitOp .jump s2)).2).code ((emitOp .jump s2).numBytes::S)
        (some (emitOp .jump s2).numBytes) := by
      refine ⟨rfl, fun p hp => ?_, ⟨0, (emitOp .jump s2).num, label⟩, ?_,
        hL.unchanged hLS fun p hp => XD.keep p hp List.not_mem_nil⟩
      · have := hLS p hp
        simp
        omega
      · rw [D.keep _ (by simp) (by simpa using hne)]
        simp [addLinkedLabel, addKnownLabel, State.numBytes]
    obtain ⟨P3, S3, X3, hL3, hS3, hsub, hC3⟩ := generateArms_placed next .eif t2' hs.2
      D.counted D.pending (fun _ _ => rfl) hL' (fun p hp => by
        rcases List.mem_cons.mp hp with rfl | hp
        · exact X2.pending.unset (by simp)
        · rw [XD.exits p (hLS p hp), hS p hp]) h3
    have he := hsub _ List.mem_cons_self
    refine ⟨P3, S3, XD.trans X3 (by simpa using he) (fun _ h => h), hL3, fun p hp => ⟨(hS3 p hp).1, ?_⟩,
      fun p hp => hsub p (List.mem_cons_of_mem _ hp), fun v φ code bottoms done hl hA => ?_⟩
    · have := XD.le
      rcases (hS3 p hp).2 with h | h
      · rcases List.mem_cons.mp h with rfl | h
        · exact .inr (by simp; omega)
        · exact .inl h
      · exact .inr (by omega)
    · have c3 := hC3 v φ code bottoms done hl (hA.sub XD.le le_rfl)
      have hle3 := X3.le
      simp only [defineLabel_numBytes, addLinkedLabel_numBytes, emitOp_numBytes] at hle3
      have A : Agrees T code (fun p => (P2 p).map bottoms) s.numBytes (emitOp .jump s2).numBytes
          (defineLabel (some (emitOp ifOp s1).numBytes) (addLinkedLabel label (emitOp .jump s2)).2) := by
        refine hA.part X3 le_rfl (by simp) (by simp; omega) (by simp) fun p hp hp' => ?_
        rw [if_neg, X3.exits p (by simp at hp' ⊢; omega)]
        intro hp3
        rcases (hS3 p hp3).2 with h | h
        · rcases List.mem_cons.mp h with rfl | h
          · omega
          · have := hLS p h
            omega
        · simp at h hp'
          omega
      have hpk : Points code (emitOp ifOp s1).numBytes
          (addLinkedLabel label (emitOp .jump s2)).2.numBytes := by
        refine .defined ho.linked List.mem_cons_self Y2.counted ?_ (A.cells _ (by simp; omega)
          (by simp; omega) (by rw [hk]; rfl))
        have := A.entries
        rwa [State.entries, defineLabel, defineChain_entries] at this
      have hpe : Points code (emitOp .jump s2).numBytes done :=
        hA.points _ _ (by simp; omega) (by simp; omega) (if_pos he)
      have c2 := hC2 v φ code bottoms hl (A.part YD (by simp; omega) le_rfl (by simp)
        (by simp) fun _ _ _ => rfl)
      have hSj : Seg T code s2.numBytes (s2.numBytes+1) (emitOp .jump s2) :=
        ((A.part D (by omega) (by simp) (by simp) (by simp; omega) fun _ _ _ => rfl).straight
          X2.pending le_rfl).back
          (((Grows.refl s2 X2.counted).op .jump |> fun G => (Grows.refl _ G.counted).linkedLabel label))
          (by simp)
      have hSc : Seg T code s.numBytes (s1.numBytes+1) (emitOp ifOp s1) :=
        ((A.part ZD le_rfl (by simp) (by simp; omega) (by simp) fun p hp hp' => by
          rw [X2.exits p (by simp; omega)]).straight hP le_rfl).pop.back
          (Grows.refl _ (G1.op ifOp).counted).label (by simp)
      obtain ⟨hbj, -⟩ := hSj.op le_rfl (by simp)
      obtain ⟨hbc, hSc⟩ := hSc.op hle1 (by simp)
      obtain ⟨c1, -⟩ := generateExpr_code hl condition hs.1.1 t hc h1 hSc le_rfl
      simp only [popStack_numBytes, addLinkedLabel_numBytes, defineLabel_numBytes,
        emitOp_numBytes] at c2 c3 hpk hpe
      have hloops : loopsAt φ bottoms s2.loops = loopsAt φ bottoms s.loops := by
        rw [loopsAt_outline φ bottoms X2.loops]
        exact loopsAt_outline φ bottoms X1.loops
      have hloops1 : loopsAt φ bottoms s1.loops = loopsAt φ bottoms s.loops :=
        loopsAt_outline φ bottoms X1.loops
      exact ⟨_, _, _, _, c1, t1.cur ▸ hl.opLabel hbc hpk (hop v.bc), hloops1 ▸ c2,
        t2.cur ▸ hl.opLabel hbj hpe fun _ => rfl, hloops ▸ c3⟩
theorem generateExcepts_placed (arms : ExceptArms) {labels : List ℕ} {label label' : Option ℕ}
    {s s' : State} {a : Account} {d m : ℕ} {frames : List Frame} {P : Exits} {S : List ℕ}
    (t : Standing s a d m none frames) (hs : arms.accepts (frames.map (·.id)) = true)
    (hc : s.num = tally s.entries) (hP : Pending s P) (hL : Linked s.code S label)
    (hS : ∀ p ∈ S, P p = none) (ho : Open s labels) (hlen : labels.length = arms.length)
    (hlab : ∀ k ∈ labels, P k = none ∧ k ∉ S)
    (h : generateExcepts arms labels label s = .ok (label', s')) :
    ∃ P' S', Extends s s' P P' labels S' ∧ Linked s'.code S' label' ∧
      (∀ p ∈ S', P' p = none ∧ (p ∈ S ∨ s.numBytes ≤ p)) ∧ (∀ p ∈ S, p ∈ S') ∧
      ∀ v φ code bottoms done, Laid v φ code →
        Agrees T code (fun p => if p ∈ S' then some done else (P' p).map bottoms) s.numBytes
          s'.numBytes s' → (∀ k ∈ labels, code[k]? = s'.code[k]?) →
        ∃ qs, List.Forall₂ (Points code) labels qs ∧
          CodeExcepts T v d (loopsAt φ bottoms s.loops) (φ done) arms (qs.map φ) (φ s.numBytes)
            (φ s'.numBytes) := by
  match arms, labels with
  | .nil, [] =>
    simp only [generateExcepts, Except.ok.injEq, Prod.mk.injEq] at h
    obtain ⟨rfl, rfl⟩ := h
    have X := (Grows.refl s hc).extends hP
    exact ⟨P, S, ⟨X.entries, X.keep, X.counted, X.loops, X.literals, X.forks, X.exits, X.pending,
      fun p l hp hl => (X.labels p l hp hl).imp_left (by simp)⟩, hL, fun p hp => ⟨hS p hp, .inl hp⟩,
      fun _ hp => hp, fun _ _ _ _ _ _ _ _ => ⟨[], .nil, rfl⟩⟩
  | .nil, _::_ => simp [ExceptArms.length] at hlen
  | .cons _ _ _ _, [] => simp [ExceptArms.length] at hlen
  | .cons id codes stmt next, k::labels =>
    simp only [ExceptArms.accepts, Bool.and_eq_true] at hs
    simp only [generateExcepts, List.head?_cons, List.tail_cons, bind_ok] at h
    obtain ⟨s1, h1, h2⟩ := h
    have D := defineLabel_extends hP hc ho.linked (by simpa using (hlab k List.mem_cons_self).1)
    have ti := ((t.define (some k)).push 1).armId id
    have t0 := (ti.op .pop).pop 1 d rfl
    have t1 := generateStmts_standing stmt t0 hs.1.2 h1
    have Gi := emitArmId_grows ((Grows.refl _ D.counted).push 1) id
    have X0 := ((Gi.op .pop).pop 1).extends D.pending
    obtain ⟨P1, X1, hC1⟩ := generateStmts_placed stmt t0 hs.1.2 X0.counted X0.pending h1
    have X01 := X0.trans X1 (R := []) (by simp) (by simp)
    have XD := D.trans X01 (R := S) (by simp) (by simp)
    have hkS := (hlab k List.mem_cons_self).2
    have hLS : ∀ p ∈ S, p < s.numBytes := fun p hp => hL.lt hp
    have hL1 : Linked s1.code S label := hL.congr fun p hp =>
      XD.keep p (hLS p hp) fun h => hkS (List.mem_singleton.mp h ▸ hp)
    have hkn : k < s.numBytes := by
      obtain ⟨l, hl, -⟩ := ho.2 k List.mem_cons_self
      exact (List.getElem?_eq_some_iff.mp hl).1
    -- the code of this arm up to the end of its statements
    have harm : ∀ v φ code bottoms, Laid v φ code →
        Agrees T code (fun p => (P1 p).map bottoms) s.numBytes s1.numBytes s1 →
        ∃ b c, CodeArmId v (d+1) id (φ s.numBytes) b ∧ v.instr (d+1) .pop b c ∧
          CodeStmts T v d (loopsAt φ bottoms s.loops) stmt c (φ s1.numBytes) := by
      intro v φ code bottoms hl hA
      have hle := X0.le
      rw [defineLabel_numBytes] at hle
      have c1 := hC1 v φ code bottoms hl (hA.sub hle le_rfl)
      have hSa := ((hA.cut X1 le_rfl le_rfl (by simp)).straight hP le_rfl).pop
      obtain ⟨hb, hSa⟩ := hSa.op (by simpa using Gi.le) (by simp)
      obtain ⟨ca, -⟩ := armId_code hl id hSa (by simp)
      simp only [pushStack_numBytes, popStack_numBytes, defineLabel_numBytes, emitOp_numBytes] at ca c1
      refine ⟨_, _, ((t.define (some k)).push 1).cur ▸ ca, ti.cur ▸ hl.op hb fun _ => rfl, ?_⟩
      exact loopsAt_outline φ bottoms X0.loops ▸ c1
    have hpoint : ∀ {code : List Cell}, s1.entries <+: code.map Cell.entry →
        code[k]? = s1.code[k]? → Points code k s.numBytes := by
      intro code he hk
      refine .defined ho.linked List.mem_cons_self hc ((XD.entries).trans he) ?_
      rw [hk, X01.keep k (by simpa using hkn) (by simp)]
    have hmem := fun p (hp : p ∈ S) => (XD.exits p (hLS p hp)).trans (hS p hp)
    cases next with
    | nil =>
      simp only [pure_ok, Prod.mk.injEq] at h2
      obtain ⟨rfl, rfl⟩ := h2
      obtain rfl : labels = [] := by simpa [ExceptArms.length] using hlen
      refine ⟨P1, S, XD, hL1, fun p hp => ⟨hmem p hp, .inl hp⟩, fun _ hp => hp,
        fun v φ code bottoms done hl hA hcode => ?_⟩
      obtain ⟨b, c, c1, c2, c3⟩ := harm v φ code bottoms hl (hA.congr fun p hp _ =>
        (if_neg fun h => by have := hLS p h; omega).symm)
      exact ⟨[s.numBytes], .cons (hpoint hA.entries (hcode k List.mem_cons_self)) .nil, b, c, _, rfl,
        c1, c2, c3, rfl⟩
    | cons id' codes' stmt' next =>
      have t2 := (t1.op .jump).label label
      have Y := (((Grows.refl s1 X1.counted).op .jump).linkedLabel label).extends X1.pending
      have XY := (D.trans X01 (R := []) (by simp) (by simp)).trans Y
        (R := [(emitOp .jump s1).numBytes]) (by simp) (by simp)
      have hle := X01.le
      rw [defineLabel_numBytes] at hle
      have hlt : ∀ j ∈ labels, j < s.numBytes := fun j hj => by
        obtain ⟨l, hl, -⟩ := ho.2 j (List.mem_cons_of_mem _ hj)
        exact (List.getElem?_eq_some_iff.mp hl).1
      have hL2 : Linked (addLinkedLabel label (emitOp .jump s1)).2.code
          ((emitOp .jump s1).numBytes::S) (some (emitOp .jump s1).numBytes) := by
        refine ⟨rfl, fun p hp => ?_, ⟨0, (emitOp .jump s1).num, label⟩, ?_, hL1.congr fun p hp =>
          Y.keep p ((hLS p hp).trans_le hle) List.not_mem_nil⟩
        · have := hLS p hp
          simp
          omega
        · simp [addLinkedLabel, addKnownLabel, State.numBytes]
      obtain ⟨P3, S3, X3, hL3, hS3, hsub, hC3⟩ := generateExcepts_placed (.cons id' codes' stmt' next)
        t2 hs.2 Y.counted Y.pending hL2 (fun p hp => by
          rcases List.mem_cons.mp hp with rfl | hp
          · exact X1.pending.unset (by simp)
          · exact hmem p hp)
        ((ho.define.extend X01 (by simp)).extend Y (by simp)) (Nat.succ.inj hlen)
        (fun j hj => ⟨by rw [XD.exits j (hlt j hj), (hlab j (List.mem_cons_of_mem _ hj)).1],
          List.not_mem_cons_of_ne_of_not_mem (by have := hlt j hj; simp; omega)
            (hlab j (List.mem_cons_of_mem _ hj)).2⟩) h2
      have he := hsub _ List.mem_cons_self
      refine ⟨P3, S3, XY.trans X3 (fun p hp => .inr (List.mem_singleton.mp hp ▸ he)) (fun _ h => h), hL3,
        fun p hp => ⟨(hS3 p hp).1, ?_⟩, fun p hp => hsub p (List.mem_cons_of_mem _ hp),
        fun v φ code bottoms done hl hA hcode => ?_⟩
      · have := XY.le
        rcases (hS3 p hp).2 with h | h
        · rcases List.mem_cons.mp h with rfl | h
          · exact .inr (by simp; omega)
          · exact .inl h
        · exact .inr (by omega)
      · obtain ⟨qs, hqs, c3⟩ := hC3 v φ code bottoms done hl (hA.sub XY.le le_rfl)
          fun j hj => hcode j (List.mem_cons_of_mem _ hj)
        have hle3 := X3.le
        simp only [addLinkedLabel_numBytes, emitOp_numBytes] at hle3
        have A : Agrees T code (fun p => (P1 p).map bottoms) s.numBytes (emitOp .jump s1).numBytes
            (addLinkedLabel label (emitOp .jump s1)).2 := by
          refine hA.part X3 le_rfl (by simp) (by simp; omega) (fun j hj => .inl (hlt j hj))
            fun p hp hp' => ?_
          rw [if_neg, X3.exits p (by simp at hp' ⊢; omega)]
          intro hp3
          rcases (hS3 p hp3).2 with h | h
          · rcases List.mem_cons.mp h with rfl | h
            · omega
            · have := hLS p h
              omega
          · simp at h hp'
            omega
        have hpe : Points code (emitOp .jump s1).numBytes done :=
          hA.points _ _ (by simp; omega) (by simp; omega) (if_pos he)
        obtain ⟨b, c, c1, c2, cs⟩ := harm v φ code bottoms hl
          (A.part Y le_rfl le_rfl (by simp) (by simp) fun _ _ _ => rfl)
        have hSj : Seg T code s1.numBytes (s1.numBytes+1) (emitOp .jump s1) :=
          ((A.sub hle (by simp)).straight X1.pending le_rfl).back
            (((Grows.refl s1 X1.counted).op .jump |> fun G => (Grows.refl _ G.counted).linkedLabel
              label)) (by simp)
        obtain ⟨hbj, -⟩ := hSj.op le_rfl (by simp)
        have hpk : Points code k s.numBytes := by
          refine hpoint (Y.entries.trans A.entries) ?_
          rw [hcode k List.mem_cons_self, X3.keep k (by simp; omega) (List.nodup_cons.mp ho.1).1,
            Y.keep k (by omega) List.not_mem_nil]
        have hloops : loopsAt φ bottoms s1.loops = loopsAt φ bottoms s.loops :=
          loopsAt_outline φ bottoms XD.loops
        simp only [addLinkedLabel_numBytes, emitOp_numBytes] at c3 hpe
        exact ⟨s.numBytes::qs, .cons hpk hqs, b, c, _, rfl, c1, c2, cs, _,
          t1.cur ▸ hl.opLabel hbj hpe fun _ => rfl, hloops ▸ c3⟩
end

end
end LambdaMoo.CodeGen
