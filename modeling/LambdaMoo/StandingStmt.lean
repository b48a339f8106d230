import LambdaMoo.Standing

/-!
# Where the generator stands after a statement

The statements leave the operand stack as they find it. The vector of a fork
is generated from a fresh state and adds only to the counters that all the
vectors of a program share.
-/

set_option autoImplicit false

namespace LambdaMoo.CodeGen

theorem generateCodes_stands (codes : ArgList) {n : ℕ} (hc : codes.scoped n false = true)
    {s s' : State} {a : Account} {d m : ℕ} {frames : List Frame}
    (t : Standing s a d m none frames) (h : generateCodes codes s = .ok s') :
    Standing s' (a.emits (codesOrItems codes (itemsArgList d none codes))) (d+1)
      (max m (d+needArgList codes)) none frames := by
  cases codes with
  | nil =>
    rw [generateCodes, codesOr, Except.ok.injEq] at h
    subst h
    exact (t.op _).push 1
  | cons kind expr next => exact generateArgList_stands _ hc t h

theorem pushHandlers_stands (arms : ExceptArms) {loops : List (Option ℕ)}
    {n : ℕ} (ha : arms.scoped n loops = true) {labels : List ℕ} {s s' : State} {a : Account}
    {d m : ℕ} {frames : List Frame} (t : Standing s a d m none frames)
    (h : pushHandlers arms s = .ok (labels, s')) :
    Standing s' (a.emits (handlerItems d arms)) (d+2*arms.length) (max m (d+needHandlers arms))
      none frames := by
  match arms with
  | .nil =>
    simp only [pushHandlers, Except.ok.injEq, Prod.mk.injEq] at h
    have := t.le
    rw [← h.2]
    exact t.cast rfl rfl (by rw [needHandlers]; omega)
  | .cons id codes stmt next =>
    simp only [ExceptArms.scoped, Bool.and_eq_true] at ha
    simp only [pushHandlers, bind_ok, pure_ok] at h
    obtain ⟨s1, h1, ⟨labels', s2⟩, h2, h3⟩ := h
    simp only [Prod.mk.injEq] at h3
    obtain ⟨-, rfl⟩ := h3
    have t1 := generateCodes_stands codes ha.1.1.2 t h1
    have t2 := pushHandlers_stands next ha.2 (((t1.extended .pushLabel).label none).push 1) h2
    refine t2.cast (by simp [handlerItems]) ?_ ?_
    · rw [ExceptArms.length]
      omega
    · have := t2.le
      rw [needHandlers]
      omega

theorem findIdx_frame (id : ℕ) (loops : List Loop) (i : ℕ) (l : Loop)
    (h : loops.findIdx? (fun l => l.id == some id) = some i) (hl : loops[i]? = some l) :
    (loops.map Loop.frame).find? (fun f => f.id == some id) = some l.frame := by
  induction loops generalizing i with
  | nil => simp at hl
  | cons l' ls ih =>
    rw [List.findIdx?_cons] at h
    rw [List.map_cons, List.find?_cons]
    cases hp : l'.id == some id with
    | true =>
      simp only [hp, if_true, Option.some.injEq] at h
      subst h
      simp only [List.getElem?_cons_zero, Option.some.injEq] at hl
      subst hl
      simp [Loop.frame, hp]
    | false =>
      simp only [hp, Bool.false_eq_true, if_false, Option.map_eq_some_iff] at h
      obtain ⟨j, hj, rfl⟩ := h
      rw [List.getElem?_cons_succ] at hl
      simpa [Loop.frame, hp] using ih j hj hl

theorem findLoop_frame (exit : Option ℕ) (loops : List Loop) (i : ℕ) (l : Loop)
    (h : findLoop exit loops = .ok i) (hl : loops[i]? = some l) :
    findFrame exit (loops.map Loop.frame) = some l.frame := by
  cases exit with
  | none =>
    cases loops with
    | nil => simp at hl
    | cons l' ls =>
      simp only [findLoop, List.isEmpty_cons, Bool.false_eq_true, if_false,
        Except.ok.injEq] at h
      subst h
      simpa [findFrame] using congrArg (Option.map Loop.frame) hl
  | some id =>
    simp only [findLoop] at h
    split at h
    · rename_i j hj
      simp only [Except.ok.injEq] at h
      subst h
      exact findIdx_frame id loops j l hj hl
    · simp at h

theorem frames_set (loops : List Loop) (i : ℕ) (l : Loop) (k : Option ℕ)
    (hl : loops[i]? = some l) :
    (loops.set i { l with bottomLabel := k }).map Loop.frame = loops.map Loop.frame := by
  apply List.ext_getElem?
  intro j
  grind [Loop.frame]

theorem Standing.exit {s : State} {a : Account} {d m : ℕ} {frames : List Frame}
    (t : Standing s a d m none frames) (exit : Option ℕ) :
    Standing (emitExit exit s) (a.emits (exitItems exit)) d m none frames := by
  cases exit with
  | none => exact t.extended .exit
  | some id => exact (t.extended .exitId).varRef id

/-- The global counters, which the vector of a fork adds to. -/
def Account.withGlobals (a b : Account) : Account :=
  { a with totalVarRefs := b.totalVarRefs, literals := b.literals, forks := b.forks }

theorem emit_withGlobals (a b : Account) (i : Item) :
    (a.withGlobals b).withGlobals ((a.withGlobals b).emit i) = a.withGlobals (b.emit i) := by
  induction i with
  | forked i ih => exact ih
  | _ => simp [Account.emit, Account.withGlobals]

theorem emits_forked (a b : Account) (items : List Item) :
    (a.withGlobals b).emits (items.map .forked) = a.withGlobals (b.emits items) := by
  induction items generalizing b with
  | nil => rfl
  | cons i items ih => 
    rw [List.map_cons, Account.emits_cons, Account.emits_cons, ← ih]
    exact congrArg (fun a => Account.emits a (items.map .forked)) (emit_withGlobals a b i)

theorem initState_standing (g : GState) :
    Standing (initState g) (initState g).account 0 0 none [] := ⟨rfl, rfl, rfl, rfl, rfl, le_refl 0⟩

theorem finishVector_gstate {s : State} {bc : Finished} {g : GState}
    (h : finishVector s = .ok (bc, g)) : g = s.gstate := by
  simp only [finishVector] at h
  split at h
  · cases h
  · split at h
    · cases h
    · simp only [bind_ok, pure_ok, Prod.mk.injEq] at h
      obtain ⟨bc', -, -, rfl⟩ := h
      rfl

namespace Standing

variable {s : State} {a : Account} {d m : ℕ} {frames : List Frame}

theorem loopTest (t : Standing s a d m none frames) (id : Option ℕ) :
    Standing (emitLoopTest id s) (a.emits (loopTestItems id)) d m none frames := by
  cases id with
  | none => exact t.op .while
  | some id => exact (t.extended .whileId).varRef id

theorem armId (t : Standing s a d m none frames) (id : Option ℕ) :
    Standing (emitArmId id s) (a.emits (armIdItems id)) d m none frames := by
  cases id with
  | none => exact t
  | some id => exact t.varOp true id

theorem forkId (t : Standing s a d m none frames) (id : Option ℕ) :
    Standing (addForkId id s) (a.emits (forkIdItems id)) d m none frames := by
  cases id with
  | none => exact t
  | some id => exact t.varRef id

/-- The vector of a fork adds to the global counters only. -/
theorem forked (t : Standing s a d m none frames) {f : State} {d' m' : ℕ} {g : GState}
    {items : List Item}
    (tf : Standing f ((initState s.gstate).account.emits items) d' m' none [])
    (hg : g = f.gstate) :
    Standing { s with gstate := g } (a.emits ((items++[Item.op .done]).map Item.forked)) d m none
      frames := by
  have ha : a = a.withGlobals (initState s.gstate).account := by
    rw [← t.account]
    rfl
  refine ⟨?_, t.cur, t.max, t.savedStack, t.frames, t.le⟩
  rw [ha, emits_forked, Account.emits_append, ← tf.account, hg, ← t.account]
  rfl

end Standing

mutual
theorem generateStmt_stands (st : Stmt) {n : ℕ} {s s' : State} {a : Account} {d m : ℕ}
    {frames : List Frame} (t : Standing s a d m none frames)
    (hs : st.scoped n (frames.map (·.id)) = true) (h : generateStmt st s = .ok s') :
    Standing s' (a.emits (itemsStmt d frames st)) d (max m (d+needStmt st)) none frames := by
  match st with
  | .cond arms otherwise =>
    simp only [Stmt.scoped, Bool.and_eq_true] at hs
    simp only [generateStmt, bind_ok, pure_ok] at h
    obtain ⟨⟨l, s1⟩, h1, s2, h2, rfl⟩ := h
    have t1 := generateArms_stands arms t hs.1 h1
    have t2 := generateStmts_stands otherwise t1 hs.2 h2
    exact (t2.define _).cast (by simp [itemsStmt]) rfl (by rw [needStmt, max_need])
  | .list id expr body =>
    simp only [Stmt.scoped, Bool.and_eq_true] at hs
    simp only [generateStmt, bind_ok, pure_ok] at h
    obtain ⟨s1, h1, s2, h2, rfl⟩ := h
    have t1 := generateExpr_stands expr hs.1.2 t h1
    have t1' := ((((t1.op (optimNumToOpcode 1)).push 1).op .forList).varRef id).label none
    have t2 := generateStmts_stands body
      (t1'.enter (some id) (d+2) d t1'.cur (congrArg (·-2) t1'.cur)) hs.2 h2
    have t3 := t2.leave.op .jump
    exact (((t3.knownLabel _).define _).pop 2 d rfl).cast (by simp [itemsStmt]) rfl
      (by rw [needStmt, max_need_pushed, add_assoc d, max_need_above])
  | .range id lo hi body =>
    simp only [Stmt.scoped, Bool.and_eq_true] at hs
    simp only [generateStmt, bind_ok, pure_ok] at h
    obtain ⟨s1, h1, s2, h2, s3, h3, rfl⟩ := h
    have t1 := generateExpr_stands lo hs.1.1.2 t h1
    have t2 := generateExpr_stands hi hs.1.2 t1 h2
    have t2' := ((t2.op .forRange).varRef id).label none
    have t3 := generateStmts_stands body
      (t2'.enter (some id) (d+2) d t2'.cur (congrArg (·-2) t2'.cur)) hs.2 h3
    have t4 := t3.leave.op .jump
    exact (((t4.knownLabel _).define _).pop 2 d rfl).cast (by simp [itemsStmt]) rfl
      (by rw [needStmt, max_need_above, max_need_above, ← Nat.add_max_add_right])
  | .while id condition body =>
    simp only [Stmt.scoped, Bool.and_eq_true] at hs
    simp only [generateStmt, bind_ok, pure_ok] at h
    obtain ⟨s1, h1, s2, h2, rfl⟩ := h
    have t1 := generateExpr_stands condition hs.1.2 t h1
    have t1' := ((t1.loopTest id).label none).pop 1 d rfl
    have t2 := generateStmts_stands body (t1'.enter id d d t1'.cur t1'.cur) hs.2 h2
    exact (((t2.leave.op .jump).knownLabel _).define _).cast (by simp [itemsStmt]) rfl
      (by rw [needStmt, max_need])
  | .fork id time body =>
    simp only [Stmt.scoped, Bool.and_eq_true] at hs
    simp only [generateStmt, bind_ok, pure_ok] at h
    obtain ⟨s1, h1, s2, h2, ⟨bc, g⟩, h3, rfl⟩ := h
    have t1 := generateExpr_stands time hs.1.2 t h1
    have t2 := generateStmts_stands body (initState_standing _) hs.2 h2
    have hg := finishVector_gstate h3
    have t3 := (((t1.op _).forked t2 hg).fork bc).forkId id
    exact (t3.pop 1 d rfl).cast (by simp [itemsStmt]) rfl (by rw [needStmt])
  | .expr expr =>
    simp only [Stmt.scoped] at hs
    simp only [generateStmt, bind_ok, pure_ok] at h
    obtain ⟨s1, h1, rfl⟩ := h
    have t1 := generateExpr_stands expr hs t h1
    exact ((t1.op .pop).pop 1 d rfl).cast (by simp [itemsStmt]) rfl (by rw [needStmt])
  | .return (some expr) =>
    simp only [Stmt.scoped] at hs
    simp only [generateStmt, bind_ok, pure_ok] at h
    obtain ⟨s1, h1, rfl⟩ := h
    have t1 := generateExpr_stands expr hs t h1
    exact ((t1.op .return).pop 1 d rfl).cast (by simp [itemsStmt]) rfl (by rw [needStmt])
  | .return none =>
    rw [generateStmt, Except.ok.injEq] at h
    subst h
    have := t.le
    exact (t.op .return0).cast rfl rfl (by rw [needStmt]; omega)
  | .tryExcept body excepts =>
    simp only [Stmt.scoped, Bool.and_eq_true] at hs
    simp only [generateStmt, bind_ok, pure_ok] at h
    obtain ⟨⟨labels, s1⟩, h1, s2, h2, ⟨l, s3⟩, h3, rfl⟩ := h
    have t1 := pushHandlers_stands excepts hs.2 t h1
    have t1' := ((t1.extended .tryExcept).byte excepts.length).push 1
    have t2 := generateStmts_stands body t1' hs.1 h2
    have t2' := ((t2.extended .endExcept).label none).pop (2*excepts.length+1) d rfl
    have t3 := generateExcepts_stands excepts t2' hs.2 h3
    refine (t3.define _).cast (by simp [itemsStmt]) rfl ?_
    rw [needStmt, max_need_pushed, add_assoc d, max_need_above, max_need, max_assoc, ← add_assoc]
  | .tryFinally body handler =>
    simp only [Stmt.scoped, Bool.and_eq_true] at hs
    simp only [generateStmt, bind_ok, pure_ok] at h
    obtain ⟨s1, h1, s2, h2, rfl⟩ := h
    have t1 := generateStmts_stands body (((t.extended .tryFinally).label none).push 1) hs.1 h1
    have t1' := (t1.extended .endFinally).pop 1 d rfl
    have t2 := generateStmts_stands handler ((t1'.define _).push 2) hs.2 h2
    exact ((t2.extended .continue).pop 2 d rfl).cast (by simp [itemsStmt]) rfl
      (by rw [needStmt, max_need_pushed, max_need_pushed, add_assoc d, add_assoc d, max_need,
        add_comm 1, add_comm 2])
  | .break exit =>
    simp only [generateStmt, generateBreak, bind_ok] at h
    obtain ⟨i, hi, h⟩ := h
    split at h
    · rename_i l hl
      rw [pure_ok] at h
      subst h
      have t1 := ((t.exit exit).stackRef l.bottomStack).label l.bottomLabel
      have hf := findLoop_frame exit _ i l hi hl
      rw [(t.exit exit).frames] at hf
      have := t.le
      refine ⟨?_, t1.cur, ?_, t1.savedStack, ?_, by omega⟩
      · rw [itemsStmt, hf, Account.emits_append]
        exact t1.account
      · rw [needStmt]
        exact t1.max.trans (by omega)
      · exact (frames_set _ i l _ hl).trans t1.frames
    · cases h
  | .continue exit =>
    simp only [generateStmt, generateContinue, bind_ok] at h
    obtain ⟨i, hi, h⟩ := h
    split at h
    · rename_i l hl
      rw [pure_ok] at h
      subst h
      have hf := findLoop_frame exit _ i l hi hl
      rw [(t.exit exit).frames] at hf
      have := t.le
      refine (((t.exit exit).stackRef l.topStack).knownLabel l.topLabel).cast ?_ rfl
        (by rw [needStmt]; omega)
      rw [itemsStmt, hf, Account.emits_append]
      rfl
    · cases h
theorem generateStmts_stands (ss : Stmts) {n : ℕ} {s s' : State} {a : Account} {d m : ℕ}
    {frames : List Frame} (t : Standing s a d m none frames)
    (hs : ss.scoped n (frames.map (·.id)) = true) (h : generateStmts ss s = .ok s') :
    Standing s' (a.emits (itemsStmts d frames ss)) d (max m (d+needStmts ss)) none frames := by
  match ss with
  | .nil =>
    rw [generateStmts, Except.ok.injEq] at h
    subst h
    have := t.le
    exact t.cast rfl rfl (by rw [needStmts]; omega)
  | .cons stmt next =>
    simp only [Stmts.scoped, Bool.and_eq_true] at hs
    simp only [generateStmts, bind_ok] at h
    obtain ⟨s1, h1, h2⟩ := h
    have t1 := generateStmt_stands stmt t hs.1 h1
    have t2 := generateStmts_stands next t1 hs.2 h2
    exact t2.cast (by simp [itemsStmts]) rfl (by rw [needStmts, max_need])
theorem generateArms_stands (arms : CondArms) {n : ℕ} {ifOp : Opcode} {l l' : Option ℕ}
    {s s' : State} {a : Account} {d m : ℕ} {frames : List Frame}
    (t : Standing s a d m none frames) (hs : arms.scoped n (frames.map (·.id)) = true)
    (h : generateArms arms ifOp l s = .ok (l', s')) :
    Standing s' (a.emits (itemsArms d frames ifOp arms)) d (max m (d+needArms arms)) none
      frames := by
  match arms with
  | .nil =>
    simp only [generateArms, Except.ok.injEq, Prod.mk.injEq] at h
    rw [← h.2]
    have := t.le
    exact t.cast rfl rfl (by rw [needArms]; omega)
  | .cons condition stmt next =>
    simp only [CondArms.scoped, Bool.and_eq_true] at hs
    simp only [generateArms, bind_ok] at h
    obtain ⟨s1, h1, s2, h2, h3⟩ := h
    have t1 := generateExpr_stands condition hs.1.1 t h1
    have t2 := generateStmts_stands stmt (((t1.op ifOp).label none).pop 1 d rfl) hs.1.2 h2
    have t3 := generateArms_stands next (((t2.op .jump).label _).define _) hs.2 h3
    exact t3.cast (by simp [itemsArms]) rfl (by rw [needArms, max_need, max_need])
theorem generateExcepts_stands (arms : ExceptArms) {n : ℕ} {labels : List ℕ} {l l' : Option ℕ}
    {s s' : State} {a : Account} {d m : ℕ} {frames : List Frame}
    (t : Standing s a d m none frames) (hs : arms.scoped n (frames.map (·.id)) = true)
    (h : generateExcepts arms labels l s = .ok (l', s')) :
    Standing s' (a.emits (itemsExcepts d frames arms)) d (max m (d+needExcepts arms)) none
      frames := by
  match arms with
  | .nil =>
    simp only [generateExcepts, Except.ok.injEq, Prod.mk.injEq] at h
    rw [← h.2]
    have := t.le
    exact t.cast rfl rfl (by rw [needExcepts]; omega)
  | .cons id codes stmt next =>
    simp only [ExceptArms.scoped, Bool.and_eq_true] at hs
    simp only [generateExcepts, bind_ok] at h
    obtain ⟨s1, h1, h2⟩ := h
    have t1 := generateStmts_stands stmt
      (((((t.define _).push 1).armId id).op .pop).pop 1 d rfl) hs.1.2 h1
    cases next with
    | nil =>
      simp only [pure_ok, Prod.mk.injEq] at h2
      rw [← h2.2]
      exact t1.cast (by simp [itemsExcepts]) rfl
        (by rw [needExcepts, max_need, needExcepts, Nat.max_zero])
    | cons id' codes' stmt' next =>
      have t2 := generateExcepts_stands (.cons id' codes' stmt' next) ((t1.op .jump).label l)
        hs.2 h2
      exact t2.cast (by simp [itemsExcepts]) rfl (by
        rw [max_need, max_need]
        rfl)
end

section
variable {s s' : State} {a : Account} {d m : ℕ} {frames : List Frame}

theorem generateCodes_standing (codes : ArgList) (hc : codes.accepts false = true)
    (t : Standing s a d m none frames) (h : generateCodes codes s = .ok s') :
    Standing s' (a.emits (codesOrItems codes (itemsArgList d none codes))) (d+1)
      (max m (d+needArgList codes)) none frames :=
  generateCodes_stands codes (codes.accepts_scoped hc) t h

theorem pushHandlers_standing (arms : ExceptArms) {loops : List (Option ℕ)}
    (ha : arms.accepts loops = true) {labels : List ℕ} (t : Standing s a d m none frames)
    (h : pushHandlers arms s = .ok (labels, s')) :
    Standing s' (a.emits (handlerItems d arms)) (d+2*arms.length) (max m (d+needHandlers arms))
      none frames :=
  pushHandlers_stands arms (arms.accepts_scoped ha) t h

theorem generateStmt_standing (st : Stmt) (t : Standing s a d m none frames)
    (hs : st.accepts (frames.map (·.id)) = true) (h : generateStmt st s = .ok s') :
    Standing s' (a.emits (itemsStmt d frames st)) d (max m (d+needStmt st)) none frames :=
  generateStmt_stands st t (st.accepts_scoped hs) h

theorem generateStmts_standing (ss : Stmts) (t : Standing s a d m none frames)
    (hs : ss.accepts (frames.map (·.id)) = true) (h : generateStmts ss s = .ok s') :
    Standing s' (a.emits (itemsStmts d frames ss)) d (max m (d+needStmts ss)) none frames :=
  generateStmts_stands ss t (ss.accepts_scoped hs) h

theorem generateArms_standing (arms : CondArms) {ifOp : Opcode} {l l' : Option ℕ}
    (t : Standing s a d m none frames) (hs : arms.accepts (frames.map (·.id)) = true)
    (h : generateArms arms ifOp l s = .ok (l', s')) :
    Standing s' (a.emits (itemsArms d frames ifOp arms)) d (max m (d+needArms arms)) none
      frames :=
  generateArms_stands arms t (arms.accepts_scoped hs) h

end

end LambdaMoo.CodeGen
