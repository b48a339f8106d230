import LambdaMoo.Segments

/-!
# Code of expressions

The finished code of an expression the generator has compiled is the code of
that expression.
-/

set_option autoImplicit false

namespace LambdaMoo.CodeGen

section
variable {T : Tables} {v : Vec} {φ : ℕ → ℕ} {code : List Cell}

mutual
theorem generateExpr_code (hl : Laid v φ code) (e : Expr) {dollar : Bool}
    (he : e.accepts dollar = true) {s s' : State} {a : Account} {d m lo : ℕ} {saved : Option ℕ}
    {frames : List Frame} (t : Standing s a d m saved frames) (hc : s.num = tally s.entries)
    (h : generateExpr e s = .ok s') (hS : Seg T code lo s'.numBytes s') (hlo : lo ≤ s.numBytes) :
    CodeExpr T v d saved e (φ s.numBytes) (φ s'.numBytes) ∧ Seg T code lo s.numBytes s := by
  have hback : Seg T code lo s.numBytes s :=
    have G := generateExpr_grows e (.refl s hc) h
    (hS.sub le_rfl G.le).back G le_rfl
  refine ⟨?_, hback⟩
  match e with
  | .var x =>
    rw [generateExpr, Except.ok.injEq] at h
    subst h
    exact t.cur ▸ codeVar hl hS.push hlo le_rfl
  | .id slot =>
    rw [generateExpr, Except.ok.injEq] at h
    subst h
    exact t.cur ▸ (codeVarOp hl hS.push hlo le_rfl).1
  | .and lhs rhs =>
    simp only [Expr.accepts, Bool.and_eq_true] at he
    simp only [generateExpr, bind_ok, pure_ok] at h
    obtain ⟨s1, h1, s2, h2, rfl⟩ := h
    have t1 := generateExpr_standing lhs he.1 t h1
    have G1 := generateExpr_grows lhs (.refl s hc) h1
    have B := (Grows.refl _ (G1.op .and).counted).label.pop 1
    have B2 := generateExpr_grows rhs (.refl _ B.counted) h2
    have hlo1 : lo ≤ (emitOp .and s1).numBytes := hlo.trans (G1.op .and).le
    have hlt : (emitOp .and s1).numBytes < s2.numBytes := (addLabel_lt _).trans_le B2.le
    obtain ⟨hp, hS, hS2⟩ := hS.labelled (((Open.nil _).label.pop 1).keep B2) B2.counted hlo1
      (by simpa using hlt)
    obtain ⟨c2, -⟩ := generateExpr_code hl rhs he.2 (((t1.op .and).label none).pop 1 d rfl)
      B.counted h2 (hS2.sub le_rfl (by simp)) (by simp)
    obtain ⟨hb, hS⟩ := (hS.back (generateExpr_grows rhs B h2) le_rfl).op (hlo.trans G1.le) (by simp)
    obtain ⟨c1, -⟩ := generateExpr_code hl lhs he.1 t hc h1 hS hlo
    rw [addLabel_pos, emitOp_numBytes] at hp
    simp only [popStack_numBytes, addLinkedLabel_numBytes, emitOp_numBytes] at c2
    rw [defineLabel_numBytes]
    exact ⟨_, _, c1, t1.cur ▸ hl.opLabel hb hp fun _ => rfl, c2⟩
  | .or lhs rhs =>
    simp only [Expr.accepts, Bool.and_eq_true] at he
    simp only [generateExpr, bind_ok, pure_ok] at h
    obtain ⟨s1, h1, s2, h2, rfl⟩ := h
    have t1 := generateExpr_standing lhs he.1 t h1
    have G1 := generateExpr_grows lhs (.refl s hc) h1
    have B := (Grows.refl _ (G1.op .or).counted).label.pop 1
    have B2 := generateExpr_grows rhs (.refl _ B.counted) h2
    have hlo1 : lo ≤ (emitOp .or s1).numBytes := hlo.trans (G1.op .or).le
    have hlt : (emitOp .or s1).numBytes < s2.numBytes := (addLabel_lt _).trans_le B2.le
    obtain ⟨hp, hS, hS2⟩ := hS.labelled (((Open.nil _).label.pop 1).keep B2) B2.counted hlo1
      (by simpa using hlt)
    obtain ⟨c2, -⟩ := generateExpr_code hl rhs he.2 (((t1.op .or).label none).pop 1 d rfl)
      B.counted h2 (hS2.sub le_rfl (by simp)) (by simp)
    obtain ⟨hb, hS⟩ := (hS.back (generateExpr_grows rhs B h2) le_rfl).op (hlo.trans G1.le) (by simp)
    obtain ⟨c1, -⟩ := generateExpr_code hl lhs he.1 t hc h1 hS hlo
    rw [addLabel_pos, emitOp_numBytes] at hp
    simp only [popStack_numBytes, addLinkedLabel_numBytes, emitOp_numBytes] at c2
    rw [defineLabel_numBytes]
    exact ⟨_, _, c1, t1.cur ▸ hl.opLabel hb hp fun _ => rfl, c2⟩
  | .unary op arg =>
    rw [Expr.accepts] at he
    simp only [generateExpr, bind_ok, pure_ok] at h
    obtain ⟨s1, h1, rfl⟩ := h
    have t1 := generateExpr_standing arg he t h1
    have G1 := generateExpr_grows arg (.refl s hc) h1
    obtain ⟨i, hS⟩ := codeUnary hl op hS (hlo.trans G1.le) le_rfl
    obtain ⟨c1, -⟩ := generateExpr_code hl arg he t hc h1 hS hlo
    exact ⟨_, c1, t1.cur ▸ i⟩
  | .binary op lhs rhs =>
    simp only [Expr.accepts, Bool.and_eq_true] at he
    simp only [generateExpr, bind_ok, pure_ok] at h
    obtain ⟨s1, h1, s2, h2, rfl⟩ := h
    have t1 := generateExpr_standing lhs he.1 t h1
    have t2 := generateExpr_standing rhs he.2 t1 h2
    have G1 := generateExpr_grows lhs (.refl s hc) h1
    have G2 := generateExpr_grows rhs (.refl s1 G1.counted) h2
    have hlo1 := hlo.trans G1.le
    obtain ⟨i, hS⟩ := codeBinary hl op hS.pop (hlo1.trans G2.le) le_rfl
    obtain ⟨c2, hS⟩ := generateExpr_code hl rhs he.2 t1 G1.counted h2 hS hlo1
    obtain ⟨c1, -⟩ := generateExpr_code hl lhs he.1 t hc h1 hS hlo
    exact ⟨_, _, c1, c2, t2.cur ▸ i⟩
  | .prop obj name =>
    simp only [Expr.accepts, Bool.and_eq_true] at he
    simp only [generateExpr, bind_ok, pure_ok] at h
    obtain ⟨s1, h1, s2, h2, rfl⟩ := h
    have t1 := generateExpr_standing obj he.1 t h1
    have t2 := generateExpr_standing name he.2 t1 h2
    have G1 := generateExpr_grows obj (.refl s hc) h1
    have G2 := generateExpr_grows name (.refl s1 G1.counted) h2
    have hlo1 := hlo.trans G1.le
    obtain ⟨hb, hS⟩ := hS.pop.op (hlo1.trans G2.le) (by simp)
    obtain ⟨c2, hS⟩ := generateExpr_code hl name he.2 t1 G1.counted h2 hS hlo1
    obtain ⟨c1, -⟩ := generateExpr_code hl obj he.1 t hc h1 hS hlo
    rw [popStack_numBytes, emitOp_numBytes]
    exact ⟨_, _, c1, c2, t2.cur ▸ hl.op hb fun _ => rfl⟩
  | .index base index =>
    simp only [Expr.accepts, Bool.and_eq_true] at he
    simp only [generateExpr, bind_ok, pure_ok] at h
    obtain ⟨s1, h1, s2, h2, rfl⟩ := h
    have t1 := generateExpr_standing base he.1 t h1
    have t2 := generateExpr_standing index he.2 t1.save h2
    have G1 := generateExpr_grows base (.refl s hc) h1
    have G2 := generateExpr_grows index (.refl _ G1.save.counted) h2
    have hlo1 := hlo.trans G1.le
    obtain ⟨hb, hS⟩ := hS.pop.op (hlo1.trans G2.le) (by simp)
    obtain ⟨c2, hS⟩ := generateExpr_code hl index he.2 t1.save G1.save.counted h2 hS.restore hlo1
    obtain ⟨c1, -⟩ := generateExpr_code hl base he.1 t hc h1 hS.save hlo
    rw [popStack_numBytes, emitOp_numBytes]
    exact ⟨_, _, c1, c2, t2.cur ▸ hl.op hb fun _ => rfl⟩
  | .range base lo hi =>
    simp only [Expr.accepts, Bool.and_eq_true] at he
    simp only [generateExpr, bind_ok, pure_ok] at h
    obtain ⟨s1, h1, s2, h2, s3, h3, rfl⟩ := h
    have t1 := generateExpr_standing base he.1.1 t h1
    have t2 := generateExpr_standing lo he.1.2 t1.save h2
    have t3 := generateExpr_standing hi he.2 t2 h3
    have G1 := generateExpr_grows base (.refl s hc) h1
    have G2 := generateExpr_grows lo (.refl _ G1.save.counted) h2
    have G3 := generateExpr_grows hi (.refl _ G2.counted) h3
    have hlo1 := hlo.trans G1.le
    have hlo2 := hlo1.trans G2.le
    obtain ⟨hb, hS⟩ := hS.pop.op (hlo2.trans G3.le) (by simp)
    obtain ⟨c3, hS⟩ := generateExpr_code hl hi he.2 t2 G2.counted h3 hS.restore hlo2
    obtain ⟨c2, hS⟩ := generateExpr_code hl lo he.1.2 t1.save G1.save.counted h2 hS hlo1
    obtain ⟨c1, -⟩ := generateExpr_code hl base he.1.1 t hc h1 hS.save hlo
    rw [popStack_numBytes, emitOp_numBytes]
    exact ⟨_, _, _, c1, c2, c3, t3.cur ▸ hl.op hb fun _ => rfl⟩
  | .length =>
    rw [generateExpr, t.savedStack] at h
    cases saved with
    | none => simp at h
    | some index =>
      simp only [Except.ok.injEq] at h
      subst h
      obtain ⟨hi, hS⟩ := hS.push.stackRef (by simp; omega) (by simp)
      obtain ⟨hb, -⟩ := hS.extended hlo (by simp)
      rw [emitExtendedByte_numBytes] at hi
      obtain ⟨hf, hd⟩ := hl.decodeExtended hb
      refine ⟨index, rfl, ?_, t.cur ▸ hd⟩
      rw [hf, Bytecodes.decodeExtended, hl.readStack hi]
      simp
  | .list args =>
    rw [Expr.accepts] at he
    rw [generateExpr] at h
    exact (generateArgList_code hl args he t hc h hS hlo).1
  | .call func args =>
    simp only [Expr.accepts, Bool.and_eq_true] at he
    simp only [generateExpr, bind_ok, pure_ok] at h
    obtain ⟨s1, h1, rfl⟩ := h
    have t1 := generateArgList_standing args he.2 t h1
    have G1 := generateArgList_grows args (.refl s hc) h1
    have hlo1 := hlo.trans G1.le
    obtain ⟨hb2, hS⟩ := hS.byte (by simp; omega) (by simp)
    obtain ⟨hb, hS⟩ := hS.op hlo1 (by simp)
    obtain ⟨c1, -⟩ := generateArgList_code hl args he.2 t hc h1 hS hlo
    rw [emitOp_numBytes] at hb2
    obtain ⟨hf, hd⟩ := hl.decode hb
    refine ⟨_, c1, ?_, t1.cur ▸ hd⟩
    rw [hf, Bytecodes.decode, hl.readByte hb2]
    simp
  | .verb obj name args =>
    simp only [Expr.accepts, Bool.and_eq_true] at he
    simp only [generateExpr, bind_ok, pure_ok] at h
    obtain ⟨s1, h1, s2, h2, s3, h3, rfl⟩ := h
    have t1 := generateExpr_standing obj he.1.1 t h1
    have t2 := generateExpr_standing name he.1.2 t1 h2
    have t3 := generateArgList_standing args he.2 t2 h3
    have G1 := generateExpr_grows obj (.refl s hc) h1
    have G2 := generateExpr_grows name (.refl s1 G1.counted) h2
    have G3 := generateArgList_grows args (.refl s2 G2.counted) h3
    have hlo1 := hlo.trans G1.le
    have hlo2 := hlo1.trans G2.le
    obtain ⟨hb, hS⟩ := hS.pop.op (hlo2.trans G3.le) (by simp)
    obtain ⟨c3, hS⟩ := generateArgList_code hl args he.2 t2 G2.counted h3 hS hlo2
    obtain ⟨c2, hS⟩ := generateExpr_code hl name he.1.2 t1 G1.counted h2 hS hlo1
    obtain ⟨c1, -⟩ := generateExpr_code hl obj he.1.1 t hc h1 hS hlo
    rw [popStack_numBytes, emitOp_numBytes]
    exact ⟨_, _, _, c1, c2, c3, t3.cur ▸ hl.op hb fun _ => rfl⟩
  | .cond condition consequent alternate =>
    simp only [Expr.accepts, Bool.and_eq_true] at he
    simp only [generateExpr, bind_ok, pure_ok] at h
    obtain ⟨s1, h1, s2, h2, s3, h3, rfl⟩ := h
    have t1 := generateExpr_standing condition he.1.1 t h1
    have t1' := ((t1.op .ifQues).label none).pop 1 d rfl
    have t2 := generateExpr_standing consequent he.1.2 t1' h2
    have G1 := generateExpr_grows condition (.refl s hc) h1
    have B1 := (Grows.refl _ (G1.op .ifQues).counted).label.pop 1
    have B2 := (generateExpr_grows consequent (.refl _ B1.counted) h2).op .jump
    have B2' := (Grows.refl _ B2.counted).label.pop 1
    have o2 := (((Open.nil _).label.pop 1).keep B2).label.pop 1
    have hcD := counted_define (some (emitOp .ifQues s1).numBytes) B2'.counted
    have B3 := generateExpr_grows alternate (.refl _ hcD) h3
    have hlo1 := hlo.trans (G1.op .ifQues).le
    have hlt1 : (emitOp .ifQues s1).numBytes < (emitOp .jump s2).numBytes :=
      (addLabel_lt _).trans_le B2.le
    have hlt2 : (emitOp .jump s2).numBytes < s3.numBytes :=
      (addLabel_lt _).trans_le (by simpa using B3.le)
    obtain ⟨p2, hS, hS3⟩ := hS.labelled (o2.define.keep B3) B3.counted (hlo1.trans hlt1.le)
      (by simpa using hlt2)
    obtain ⟨c3, -⟩ := generateExpr_code hl alternate he.2
      ((((t2.op .jump).label none).pop 1 d rfl).define _) hcD h3 (hS3.sub le_rfl (by simp))
      (by simp)
    obtain ⟨p1, hS1, hS2⟩ := (hS.back B3 (by simp)).labelled o2 B2'.counted hlo1 hlt1
    have hle2 := (generateExpr_grows consequent (.refl _ B1.counted) h2).le
    obtain ⟨hb2, hS2⟩ := (hS2.back B2' le_rfl).op (by simpa using hle2) (by simp)
    obtain ⟨c2, -⟩ := generateExpr_code hl consequent he.1.2 t1' B1.counted h2 hS2 (by simp)
    have GX := ((generateExpr_grows consequent B1 h2).op .jump).label.pop 1
    obtain ⟨hb1, hS1⟩ := (hS1.back GX le_rfl).op (hlo.trans G1.le) (by simp)
    obtain ⟨c1, -⟩ := generateExpr_code hl condition he.1.1 t hc h1 hS1 hlo
    rw [defineLabel_numBytes]
    simp only [popStack_numBytes, defineLabel_numBytes, addLinkedLabel_numBytes,
      addLabel_numBytes, addLabel_pos, emitOp_numBytes] at c2 c3 p1 p2
    exact ⟨_, _, _, _, c1, t1.cur ▸ hl.opLabel hb1 p1 fun _ => rfl, c2,
      t2.cur ▸ hl.opLabel hb2 p2 fun _ => rfl, c3⟩
  | .catch body codes default =>
    simp only [Expr.accepts, Bool.and_eq_true] at he
    simp only [generateExpr, bind_ok, pure_ok] at h
    obtain ⟨s1, h1, s2, h2, s3, h3, rfl⟩ := h
    have t1 : ∃ a m, Standing s1 a (d+1) m saved frames := by
      match codes with
      | .nil =>
        rw [codesOr, Except.ok.injEq] at h1
        exact h1 ▸ ⟨_, _, (t.op _).push 1⟩
      | .cons kind expr next => exact ⟨_, _, generateArgList_standing _ he.1.2 t h1⟩
    obtain ⟨a1, m1, t1⟩ := t1
    have G1 : Grows s s1 [] := by
      match codes with
      | .nil =>
        rw [codesOr, Except.ok.injEq] at h1
        exact h1 ▸ ((Grows.refl s hc).op _).push 1
      | .cons kind expr next => exact generateArgList_grows _ (.refl s hc) h1
    have t1' := (((t1.extended .pushLabel).label none).push 1).extended .catch
    have t2 := generateExpr_standing body he.1.1 (t1'.push 1) h2
    have t2' := ((t2.extended .endCatch).label none).pop 3 (d+1) rfl
    have B1 := (Grows.refl _ (G1.extended .pushLabel).counted).label
    have B1' := ((Grows.refl _ B1.counted).push 1).extended .catch
    have B2 := (generateExpr_grows body (B1'.push 1) h2).extended .endCatch
    have B2' := (Grows.refl _ B2.counted).label.pop 3
    have o2 := ((Open.nil _).label.keep B2).label.pop 3
    have hcD := counted_define (some (emitExtendedByte .pushLabel s1).numBytes) B2'.counted
    have B3 := generateDefault_grows default (.refl _ hcD) h3
    have hlo1 := hlo.trans (G1.extended .pushLabel).le
    have hlt1 : (emitExtendedByte .pushLabel s1).numBytes < (emitExtendedByte .endCatch s2).numBytes :=
      (addLabel_lt _).trans_le B2.le
    have hlt2 : (emitExtendedByte .endCatch s2).numBytes < s3.numBytes :=
      (addLabel_lt _).trans_le (by simpa using B3.le)
    obtain ⟨p2, hS, hS3⟩ := hS.labelled (o2.define.keep B3) B3.counted (hlo1.trans hlt1.le)
      (by simpa using hlt2)
    obtain ⟨c3, -⟩ := generateDefault_code hl default he.2 (t2'.define _) hcD h3
      (hS3.sub le_rfl (by simp)) (by simp)
    obtain ⟨p1, hS1, hS2⟩ := (hS.back B3 (by simp)).labelled o2 B2'.counted hlo1 hlt1
    have hle2 := (generateExpr_grows body (.refl _ (B1'.push 1).counted) h2).le
    simp only [pushStack_numBytes, emitExtendedByte_numBytes, addLabel_numBytes] at hle2
    obtain ⟨hb3, hS2⟩ := (hS2.back B2' le_rfl).extended (by simp; omega) (by simp)
    obtain ⟨c2, hS2⟩ := generateExpr_code hl body he.1.1 (t1'.push 1) (B1'.push 1).counted h2 hS2
      (by simp)
    obtain ⟨hb2, -⟩ := hS2.push.extended (by simp) (by simp)
    have GX := ((generateExpr_grows body (((B1.push 1).extended .catch).push 1) h2).extended
      .endCatch).label.pop 3
    obtain ⟨hb1, hS1⟩ := (hS1.back GX le_rfl).extended (hlo.trans G1.le) (by simp)
    have c1 : CodeCodes T v d saved codes (φ s.numBytes) (φ s1.numBytes) := by
      match codes with
      | .nil =>
        rw [codesOr, Except.ok.injEq] at h1
        subst h1
        rw [pushStack_numBytes, emitOp_numBytes] at hS1 ⊢
        exact t.cur ▸ hl.op (hS1.push.op hlo (by omega)).1 (decode_optimNum _ (by decide))
      | .cons kind expr next =>
        exact (generateArgList_code hl (.cons kind expr next) he.1.2 t hc h1 hS1 hlo).1
    rw [defineLabel_numBytes]
    simp only [popStack_numBytes, pushStack_numBytes, defineLabel_numBytes,
      addLinkedLabel_numBytes, addLabel_numBytes, addLabel_pos,
      emitExtendedByte_numBytes] at c2 c3 p1 p2 hb2
    have hcur : (pushStack 1 (addLabel (emitExtendedByte .pushLabel s1)).2).curStack = d+2 :=
      (((t1.extended .pushLabel).label none).push 1).cur
    exact ⟨_, _, _, _, _, c1, t1.cur ▸ hl.extendedLabel hb1 p1 fun _ => rfl,
      hcur ▸ hl.extended hb2 fun _ => rfl, c2,
      t2.cur ▸ hl.extendedLabel hb3 p2 fun _ => rfl, c3⟩
  | .asgn (.scatter sc) rhs =>
    simp only [Expr.accepts, Bool.and_eq_true] at he
    simp only [generateExpr, bind_ok, pure_ok] at h
    obtain ⟨s1, h1, s2, h2, rfl⟩ := h
    have t1 := generateExpr_standing rhs he.2 t h1
    have G1 := generateExpr_grows rhs (.refl s hc) h1
    have tS := (((t1.extended .scatter).byte sc.length).byte (Scatter.nreq sc)).byte
      (Scatter.rest sc)
    have GS := (((G1.extended .scatter).byte sc.length).byte (Scatter.nreq sc)).byte
      (Scatter.rest sc)
    have hn : (emitByte (Scatter.rest sc) (emitByte (Scatter.nreq sc) (emitByte sc.length
        (emitExtendedByte .scatter s1)))).numBytes = s1.numBytes+5 := by simp
    have t2 := (scatterTargets_standing sc tS).label none
    have B := (scatterTargets_grows sc (.refl _ GS.counted)).label
    rw [defineLabel_numBytes] at hS ⊢
    obtain ⟨hp, hS2, hlab, htg, hS1⟩ := Seg.scatter sc GS.counted h2 hS (hlo.trans GS.le)
    obtain ⟨qs, hqs, cs⟩ := generateDefaults_code hl sc he.1.2 t2 B.counted
      (scatterTargets_open sc GS.counted).1.label.left (scatterTargets_length sc _) h2
      (hS2.sub (by simp) le_rfl) hlab
    have hread := scatterTargets_read hl sc GS.counted htg hqs
    rw [hn] at hread hS1
    have hle1 := hlo.trans G1.le
    obtain ⟨hb3, hS1⟩ := hS1.byte (by simp; omega) (by simp)
    obtain ⟨hb2, hS1⟩ := hS1.byte (by simp; omega) (by simp)
    obtain ⟨hb1, hS1⟩ := hS1.byte (by simp; omega) (by simp)
    obtain ⟨hb0, hS1⟩ := hS1.extended (hlo.trans G1.le) (by simp)
    obtain ⟨c1, -⟩ := generateExpr_code hl rhs he.2 t hc h1 hS1 hlo
    simp only [emitByte_numBytes, emitExtendedByte_numBytes] at hb1 hb2 hb3
    rw [addLinkedLabel_numBytes] at cs
    have h0 := hl.scatter hb0 hb1 hb2 hb3 hread hp
    rw [t1.cur] at h0
    exact ⟨_, _, _, c1, h0, cs⟩
  | .asgn (.id _) rhs | .asgn (.prop _ _) rhs | .asgn (.index _ _) rhs | .asgn (.range _ _ _) rhs =>
    rw [Expr.accepts_asgn _ rhs (by simp), Bool.and_eq_true, Bool.and_eq_true] at he
    rw [generateExpr_asgn _ rhs (by simp), bind_ok] at h
    obtain ⟨s1, h1, h⟩ := h
    rw [bind_ok] at h
    obtain ⟨s2, h2, h3⟩ := h
    have t1 := pushLvalue_standing _ false he.1.2 t h1
    have t2 := generateExpr_standing rhs he.2 t1 h2
    have G1 := pushLvalue_grows _ (.refl s hc) h1
    have G2 := generateExpr_grows rhs (.refl s1 G1.counted) h2
    have hlo1 := hlo.trans G1.le
    obtain ⟨c3, hS⟩ := storeRhs_code hl _ he.1.1 t2 G2.counted h3 hS (hlo1.trans G2.le)
    obtain ⟨c2, hS⟩ := generateExpr_code hl rhs he.2 t1 G1.counted h2 hS hlo1
    obtain ⟨c1, -⟩ := pushLvalue_code hl _ false he.1.2 t hc h1 hS hlo
    exact ⟨_, _, c1, c2, c3⟩
  | .asgn (.var _) _ | .asgn (.verb _ _ _) _ | .asgn (.asgn _ _) _ | .asgn (.call _ _) _
  | .asgn (.binary _ _ _) _ | .asgn (.and _ _) _ | .asgn (.or _ _) _ | .asgn (.unary _ _) _
  | .asgn (.list _) _ | .asgn (.cond _ _ _) _ | .asgn (.catch _ _ _) _ | .asgn .length _ =>
    simp [Expr.accepts, Expr.isLvalue, Expr.isIndexBase] at he
  | .scatter _ => simp [generateExpr] at h
theorem generateArgList_code (hl : Laid v φ code) (args : ArgList) {dollar : Bool}
    (he : args.accepts dollar = true) {s s' : State} {a : Account} {d m lo : ℕ}
    {saved : Option ℕ} {frames : List Frame} (t : Standing s a d m saved frames)
    (hc : s.num = tally s.entries) (h : generateArgList args s = .ok s')
    (hS : Seg T code lo s'.numBytes s') (hlo : lo ≤ s.numBytes) :
    CodeArgList T v d saved args (φ s.numBytes) (φ s'.numBytes) ∧
      Seg T code lo s.numBytes s := by
  match args with
  | .nil =>
    simp only [generateArgList, Except.ok.injEq] at h
    subst h
    rw [pushStack_numBytes, emitOp_numBytes] at hS ⊢
    exact (hS.push.op hlo (by omega)).imp_left fun hb => t.cur ▸ hl.op hb fun _ => rfl
  | .cons kind expr next =>
    simp only [ArgList.accepts, Bool.and_eq_true] at he
    simp only [generateArgList, bind_ok] at h
    obtain ⟨s1, h1, h2⟩ := h
    have t1 := generateExpr_standing expr he.1 t h1
    have G1 := generateExpr_grows expr (.refl s hc) h1
    obtain ⟨c2, hS⟩ := generateArgs_code hl next he.2 (t1.op _) (G1.op _).counted h2 hS
      (hlo.trans (G1.op _).le)
    obtain ⟨hb, hS⟩ := hS.op (hlo.trans G1.le) (by simp)
    obtain ⟨c1, hS⟩ := generateExpr_code hl expr he.1 t hc h1 hS hlo
    rw [emitOp_numBytes] at c2
    refine ⟨⟨_, _, c1, t1.cur ▸ hl.op hb fun _ => ?_, c2⟩, hS⟩
    cases kind <;> rfl
theorem generateArgs_code (hl : Laid v φ code) (args : ArgList) {dollar : Bool}
    (he : args.accepts dollar = true) {s s' : State} {a : Account} {d m lo : ℕ}
    {saved : Option ℕ} {frames : List Frame} (t : Standing s a (d+1) m saved frames)
    (hc : s.num = tally s.entries) (h : generateArgs args s = .ok s')
    (hS : Seg T code lo s'.numBytes s') (hlo : lo ≤ s.numBytes) :
    CodeArgs T v d saved args (φ s.numBytes) (φ s'.numBytes) ∧
      Seg T code lo s.numBytes s := by
  match args with
  | .nil =>
    simp only [generateArgs, Except.ok.injEq] at h
    subst h
    exact ⟨rfl, hS⟩
  | .cons kind expr next =>
    simp only [ArgList.accepts, Bool.and_eq_true] at he
    simp only [generateArgs, bind_ok] at h
    obtain ⟨s1, h1, h2⟩ := h
    have t1 := generateExpr_standing expr he.1 t h1
    have G1 := generateExpr_grows expr (.refl s hc) h1
    obtain ⟨c2, hS⟩ := generateArgs_code hl next he.2 ((t1.op _).pop 1 (d+1) rfl)
      ((G1.op _).pop 1).counted h2 hS (hlo.trans ((G1.op _).pop 1).le)
    obtain ⟨hb, hS⟩ := hS.pop.op (hlo.trans G1.le) (by simp)
    obtain ⟨c1, hS⟩ := generateExpr_code hl expr he.1 t hc h1 hS hlo
    rw [popStack_numBytes, emitOp_numBytes] at c2
    refine ⟨⟨_, _, c1, t1.cur ▸ hl.op hb fun _ => ?_, c2⟩, hS⟩
    cases kind <;> rfl
theorem pushLvalue_code (hl : Laid v φ code) (e : Expr) (above : Bool) {dollar : Bool}
    (he : e.accepts dollar = true) {s s' : State} {a : Account} {d m lo : ℕ}
    {saved : Option ℕ} {frames : List Frame} (t : Standing s a d m saved frames)
    (hc : s.num = tally s.entries) (h : pushLvalue e above s = .ok s')
    (hS : Seg T code lo s'.numBytes s') (hlo : lo ≤ s.numBytes) :
    CodeLvalue T v d saved e above (φ s.numBytes) (φ s'.numBytes) ∧
      Seg T code lo s.numBytes s := by
  match e with
  | .range base lo hi =>
    simp only [Expr.accepts, Bool.and_eq_true] at he
    simp only [pushLvalue, bind_ok, pure_ok] at h
    obtain ⟨s1, h1, s2, h2, s3, h3, rfl⟩ := h
    have t1 := pushLvalue_standing base true he.1.1 t h1
    have t2 := generateExpr_standing lo he.1.2 t1.save h2
    have G1 := pushLvalue_grows base (.refl s hc) h1
    have G2 := generateExpr_grows lo (.refl _ G1.save.counted) h2
    have hlo1 := hlo.trans G1.le
    obtain ⟨c3, hS⟩ := generateExpr_code hl hi he.2 t2 G2.counted h3 hS.restore
      (hlo1.trans G2.le)
    obtain ⟨c2, hS⟩ := generateExpr_code hl lo he.1.2 t1.save G1.save.counted h2 hS hlo1
    obtain ⟨c1, hS⟩ := pushLvalue_code hl base true he.1.1 t hc h1 hS.save hlo
    exact ⟨⟨_, _, c1, c2, c3⟩, hS⟩
  | .index base index =>
    simp only [Expr.accepts, Bool.and_eq_true] at he
    simp only [pushLvalue, bind_ok, pure_ok] at h
    obtain ⟨s1, h1, s2, h2, rfl⟩ := h
    have t1 := pushLvalue_standing base true he.1 t h1
    have t2 := generateExpr_standing index he.2 t1.save h2
    have G1 := pushLvalue_grows base (.refl s hc) h1
    have G2 := generateExpr_grows index (.refl _ G1.save.counted) h2
    have hlo1 := hlo.trans G1.le
    obtain ⟨ca, hS⟩ : CodeAbove v above (d+lvalueDepth base true+1) .pushRef (φ s2.numBytes) _ ∧
        Seg T code lo s2.numBytes s2 :=
      (codeAbove (o := .pushRef) hl above .pushRef (t2.restore _).cur hS (hlo1.trans G2.le)
        fun _ => rfl).imp_right (·.restore)
    obtain ⟨c2, hS⟩ := generateExpr_code hl index he.2 t1.save G1.save.counted h2 hS hlo1
    obtain ⟨c1, hS⟩ := pushLvalue_code hl base true he.1 t hc h1 hS.save hlo
    exact ⟨⟨_, _, c1, c2, ca⟩, hS⟩
  | .id slot =>
    rw [pushLvalue, Except.ok.injEq] at h
    subst h
    cases above with
    | false => exact ⟨rfl, hS⟩
    | true => exact t.cur ▸ codeVarOp hl hS.push hlo le_rfl
  | .prop obj name =>
    simp only [Expr.accepts, Bool.and_eq_true] at he
    simp only [pushLvalue, bind_ok, pure_ok] at h
    obtain ⟨s1, h1, s2, h2, rfl⟩ := h
    have t1 := generateExpr_standing obj he.1 t h1
    have t2 := generateExpr_standing name he.2 t1 h2
    have G1 := generateExpr_grows obj (.refl s hc) h1
    have G2 := generateExpr_grows name (.refl _ G1.counted) h2
    have hlo1 := hlo.trans G1.le
    obtain ⟨ca, hS⟩ := codeAbove hl above .pushGetProp t2.cur hS (hlo1.trans G2.le) fun _ => rfl
    obtain ⟨c2, hS⟩ := generateExpr_code hl name he.2 t1 G1.counted h2 hS hlo1
    obtain ⟨c1, hS⟩ := generateExpr_code hl obj he.1 t hc h1 hS hlo
    exact ⟨⟨_, _, c1, c2, ca⟩, hS⟩
  | .var _ | .verb _ _ _ | .asgn _ _ | .call _ _ | .binary _ _ _ | .and _ _ | .or _ _
  | .unary _ _ | .list _ | .cond _ _ _ | .catch _ _ _ | .length | .scatter _ =>
    simp [pushLvalue] at h
theorem generateDefault_code (hl : Laid v φ code) (e : OptExpr) {dollar : Bool}
    (he : e.accepts dollar = true) {s s' : State} {a : Account} {d m lo : ℕ}
    {saved : Option ℕ} {frames : List Frame} (t : Standing s a (d+1) m saved frames)
    (hc : s.num = tally s.entries) (h : generateDefault e s = .ok s')
    (hS : Seg T code lo s'.numBytes s') (hlo : lo ≤ s.numBytes) :
    CodeDefault T v d saved e (φ s.numBytes) (φ s'.numBytes) ∧
      Seg T code lo s.numBytes s := by
  match e with
  | .some expr =>
    rw [OptExpr.accepts] at he
    rw [generateDefault] at h
    have G := ((Grows.refl s hc).op .pop).pop 1
    obtain ⟨c, hS⟩ := generateExpr_code hl expr he ((t.op .pop).pop 1 d rfl) G.counted h hS
      (hlo.trans G.le)
    obtain ⟨hb, hS⟩ := hS.pop.op hlo (by simp)
    rw [popStack_numBytes, emitOp_numBytes] at c
    exact ⟨⟨_, t.cur ▸ hl.op hb fun _ => rfl, c⟩, hS⟩
  | .none =>
    rw [generateDefault, Except.ok.injEq] at h
    subst h
    obtain ⟨hb2, hS⟩ := hS.op (by simp; omega) (by simp)
    obtain ⟨hb1, hS⟩ := hS.op hlo (by simp)
    rw [emitOp_numBytes] at hb2
    have hcur : (emitOp (optimNumToOpcode 1) s).curStack = d+1 := t.cur
    rw [hcur] at hb2
    simp only [emitOp_numBytes]
    exact ⟨⟨_, t.cur ▸ hl.op hb1 (decode_optimNum _ (by decide)), hl.op hb2 fun _ => rfl⟩, hS⟩
theorem generateDefaults_code (hl : Laid v φ code) (sc : Scatter) {dollar : Bool}
    (he : sc.accepts dollar = true) {labels : List ℕ} {s s' : State} {a : Account} {d m : ℕ}
    {saved : Option ℕ} {frames : List Frame} (t : Standing s a d m saved frames)
    (hc : s.num = tally s.entries) (ho : Open s labels)
    (hlen : labels.length = Scatter.defaults sc) (h : generateDefaults sc labels s = .ok s')
    (hS : Seg T code s.numBytes s'.numBytes s')
    (hlab : ∀ k ∈ labels, code[k]? = s'.code[k]?) :
    ∃ qs, List.Forall₂ (Points code) labels qs ∧
      CodeDefaults T v d saved sc (targetPairs sc (qs.map φ)) (φ s.numBytes) (φ s'.numBytes) := by
  match sc, labels with
  | .nil, [] =>
    rw [generateDefaults, Except.ok.injEq] at h
    subst h
    exact ⟨[], .nil, rfl, rfl⟩
  | .nil, _::_ => simp [Scatter.defaults] at hlen
  | .cons .optional id (.some expr) next, label::labels =>
    simp only [Scatter.accepts, Bool.and_eq_true, OptExpr.accepts] at he
    simp only [generateDefaults, bind_ok] at h
    obtain ⟨s1, h1, h2⟩ := h
    have hcD := counted_define (some label) hc
    have t1 := generateExpr_standing expr he.1.2 (t.define (some label)) h1
    have t2 := ((t1.varOp true id).op .pop).pop 1 d rfl
    have B1 := generateExpr_grows expr (.refl _ hcD) h1
    have B := ((B1.varOp true id).op .pop).pop 1
    have ho' := ho.define.keep B
    have hlt : ∀ k ∈ label::labels, k < s.numBytes := fun k hk => by
      obtain ⟨l, hl, -⟩ := ho.2 k hk
      exact (List.getElem?_eq_some_iff.mp hl).1
    have hle := B.le
    rw [defineLabel_numBytes] at hle
    obtain ⟨hkeep, hpre, hlit, hforks⟩ := generateDefaults_keep next B.counted ho'
      (Nat.succ.inj hlen) h2
    obtain ⟨qs, hqs, cs⟩ := generateDefaults_code hl next he.2 t2 B.counted ho'
      (Nat.succ.inj hlen) h2 (hS.sub hle le_rfl) fun k hk => hlab k (List.mem_cons_of_mem _ hk)
    have hSB : Seg T code s.numBytes
        (popStack 1 (emitOp .pop (emitVarOp true id s1))).numBytes
        (popStack 1 (emitOp .pop (emitVarOp true id s1))) := by
      refine ⟨fun p hp hp' => ?_, hpre.trans hS.entries, hlit.trans hS.literals,
        hforks.trans hS.forks⟩
      rw [hS.cells p hp (hp'.trans_le (by simpa using hpre.length_le)), hkeep p hp' fun hpl => ?_]
      have := hlt p (List.mem_cons_of_mem _ hpl)
      omega
    have hle1 := B1.le
    rw [defineLabel_numBytes] at hle1
    have hle2 := ((Grows.refl s1 B1.counted).varOp true id).le
    obtain ⟨hb2, hS2⟩ := hSB.pop.op (hle1.trans hle2) (by simp)
    obtain ⟨cp, hS2⟩ := codeVarOp hl hS2 hle1 le_rfl
    obtain ⟨c1, -⟩ := generateExpr_code hl expr he.1.2 (t.define (some label)) hcD h1 hS2
      (by simp)
    have hpt : Points code label s.numBytes := by
      obtain ⟨l, hl, hn⟩ := ho.2 label List.mem_cons_self
      have hlt' := hlt label List.mem_cons_self
      refine .defined (Linked.single hl hn) List.mem_cons_self hc ?_ ?_
      · have := (B.entries.trans hpre).trans hS.entries
        simpa [State.entries, defineLabel, defineChain_entries] using this
      · rw [hlab label List.mem_cons_self, hkeep label (hlt'.trans_le hle)
          (List.nodup_cons.mp ho.1).1, B.keep label (by simpa using hlt')]
    have hcur : (emitVarOp true id s1).curStack = d+1 := (t1.varOp true id).cur
    rw [defineLabel_numBytes] at c1
    rw [popStack_numBytes, emitOp_numBytes] at cs
    exact ⟨s.numBytes::qs, .cons hpt hqs, _, _, _, _, rfl, c1, t1.cur ▸ cp,
      hcur ▸ hl.op hb2 fun _ => rfl, cs⟩
  | .cons .optional id (.some expr) next, [] => simp [Scatter.defaults] at hlen
  | .cons .optional id .none next, _ | .cons .required id _ next, _ | .cons .rest id _ next, _ =>
    simp only [Scatter.accepts, Bool.and_eq_true] at he
    simp only [generateDefaults] at h
    obtain ⟨qs, hqs, cs⟩ := generateDefaults_code hl next he.2 t hc ho hlen h hS hlab
    exact ⟨qs, hqs, _, rfl, cs⟩
end
end
end LambdaMoo.CodeGen
