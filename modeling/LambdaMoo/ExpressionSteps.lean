import LambdaMoo.Places

/-!
# Steps of expressions

What the instructions of an expression do, given what those of its parts do.
-/

set_option autoImplicit false

namespace LambdaMoo.Run
open LambdaMoo.Execute LambdaMoo.CodeGen

section Steps
variable {σ : Type} [FloatOps] {s : Setting σ}

section Cases
variable {α : Type} {d k a a' : ℕ} {saved : Option ℕ} {dollar : Option Var} {st st' ws : List Var}
  {f : Frame σ} {t v w : Var} {e : Expr} {p : Place} {i : Instr}

theorem ends_raise (ws : List Var) {K : α → Frame σ → Activ (Regs σ) → Prop} {er : Err}
    (hi : s.v.instr d i a a')
    (he : execInstr s.host s.T s.v.bc i ⟨a', st', f.regs t⟩ =
      .ok (.raise (.err er) ⟨k, ws++st, f.regs t⟩))
    (hws : ∀ w ∈ ws, unmarked w) (hf : f.Clean) :
    s.Ends ⟨a, st', f.regs t⟩ st K (Eval.raise s.host (.err er) f) := by
  refine ⟨unmarked_raised trivial, hf, _, ⟨k, ws++st, f.regs t⟩, _, ws, t, .refl, ?_, .raise rfl,
    rfl, rfl, .values hws⟩
  rw [move, hi.1]
  exact he

theorem ends_var {x : Var} (h : CodeVar s.T s.v d x a a') (hf : f.Clean) :
    s.Ends ⟨a, st, f.regs t⟩ st (s.At a' st) ((pure x : Eval σ Var) f) := by
  rcases h with ⟨n, rfl, -, hi⟩ | ⟨-, slot, hslot, hi⟩
  · exact ⟨_, adv_one hi rfl, t, trivial, hf, .inl rfl⟩
  · have hx : unmarked x := s.literals x (List.mem_of_getElem? hslot)
    have himm : ∀ b, imm s.T s.v.bc slot ⟨a', st, f.regs t⟩ = .ok (.next b) →
        s.Adv ⟨a, st, f.regs t⟩ b := by
      intro b hb
      exact adv_one hi hb
    by_cases hpop : s.v.bc.vector[a']? = some (Opcode.toByte .pop)
    · refine ⟨⟨a'+1, st, f.regs t⟩, himm _ ?_, t, hx, hf, .inr ⟨hpop, rfl⟩⟩
      simp only [imm, if_pos hpop]
      rfl
    · refine ⟨⟨a', x::st, f.regs t⟩, himm _ ?_, t, hx, hf, .inl rfl⟩
      simp only [imm, if_neg hpop, hslot]
      rfl

theorem ends_length {index : ℕ} (hd : Sits d saved dollar st) (hs : saved = some index)
    (hi : s.v.instr d (.length index) a a') (hf : f.Clean) :
    s.Ends ⟨a, st, f.regs t⟩ st (s.At a' st) (evalExpr s.host dollar .length f) := by
  obtain ⟨w, rfl, hget⟩ := hd.value index hs
  have hlen : opLength index ⟨a', st, f.regs t⟩ = call ⟨a', st, f.regs t⟩ st (still (bfLength w)) := by
    simp only [opLength, hget]
  rw [evalExpr]
  exact ends_at hi hlen (answers_still fun r hr => given_length hr) hf

omit [FloatOps] in
theorem at_top (hw : unmarked w) (hf : f.Clean) : s.At a st w f ⟨a, w::st, f.regs t⟩ :=
  ⟨t, hw, hf, .inl rfl⟩

/-- The part of an assignment that is read before its parts are. -/
theorem ends_base {K : α → Frame σ → Activ (Regs σ) → Prop} {m : Eval σ Place}
    {cont : Place → Var → Eval σ α} (h : CodeLvalue s.T s.v d saved e true a a')
    (hs : s.Starts a') (hd : st.length = d)
    (hm : ∀ b, CodeLvalue s.T s.v d saved e false a b → s.Starts b →
      s.Ends ⟨a, st, f.regs t⟩ st (AtPlace b st e) (m f))
    (hcont : ∀ p w g t, Shape e p → p.Readable → (∀ w ∈ p.operands, unmarked w) → unmarked w →
      g.Clean → Sits (d+lvalueDepth e true) (some (d+lvalueDepth e true-1)) (some w)
        (w::(p.operands++st)) →
      s.Ends ⟨a', w::(p.operands++st), g.regs t⟩ st K (cont p w g)) :
    s.Ends ⟨a, st, f.regs t⟩ st K ((do
      let p ← m
      let w ← readPlace s.host p
      cont p w) f) := by
  obtain ⟨b, hb, hread⟩ := lvalue_above h
  have hstart : s.Starts b := by
    rcases hread with ⟨-, rfl⟩ | ⟨k, hi⟩
    · exact hs
    · refine starts_of_instr hi ?_
      cases e <;> simp [readInstr]
  refine (hm b hb hstart).bind fun p g y hy => ?_
  obtain ⟨hshape, hops, hg, t', rfl⟩ := hy
  rcases hread with ⟨⟨base, lo, hi, rfl⟩, -⟩ | ⟨k, hi⟩
  · cases p with
    | range outer base lo hi => trivial
    | _ => exact hshape.elim
  · refine (ends_read hshape hops hi hg).bind fun w g' y hy => ?_
    obtain ⟨hr, hw, hg', rfl⟩ := hy
    have hlen : (p.operands++st).length+1 = d+lvalueDepth e true := by
      rw [(shape_depth hshape).2 hr, List.length_append, hd]
      omega
    have hover : Sits ((p.operands++st).length+1) _ _ (w::(p.operands++st)) := sits_over rfl w
    rw [hlen, show (p.operands++st).length = d+lvalueDepth e true-1 by omega] at hover
    exact hcont p w g' t' hshape hr hops hw hg' hover

/-! ### Catch expressions -/

/-- The body runs above its handler; an error that is for it goes on with the default. -/
theorem ends_guarded {b c x z : ℕ} {m : Eval σ Var} {dflt : Var → Eval σ Var} {codes : Var}
    (hcodes : unmarked codes) (hz : z < 2^64) (hend : s.v.instr d (.endCatch a') b c)
    (hm : s.Ends ⟨x, .catch 1::.int (BitVec.ofNat 64 z)::codes::st, f.regs t⟩
      (.catch 1::.int (BitVec.ofNat 64 z)::codes::st)
      (s.At b (.catch 1::.int (BitVec.ofNat 64 z)::codes::st)) (m f))
    (hd : ∀ code args g t, unmarked code → g.Clean →
      s.Ends ⟨z, .list (code::args)::st, g.regs t⟩ st (s.At a' st) (dflt code g)) :
    s.Ends ⟨x, .catch 1::.int (BitVec.ofNat 64 z)::codes::st, f.regs t⟩ st (s.At a' st)
      (Eval.guarded m codes dflt f) := by
  have hn : (BitVec.ofNat 64 z).toNat = z := by
    rw [BitVec.toNat_ofNat, Nat.mod_eq_of_lt hz]
  refine hm.handle (fun w g y hat => ?_) fun code args g hr => ?_
  · obtain ⟨t', hw, hg, rfl⟩ := hat.top (starts_of_instr hend (by simp))
    exact ⟨_, adv_one hend rfl, t', hw, hg, .inl rfl⟩
  · by_cases hh : handles code codes = true
    · rw [if_pos hh]
      obtain ⟨hcode, hg, y, y', mv, ws, t', hy, hmove, ht, hstack, hframe, hp⟩ := hr
      have hcaught := advance_caught [(codes, BitVec.ofNat 64 z)] hmove ht hstack hp (by simp)
        (List.find?_cons_of_pos hh)
      rw [hn, hframe] at hcaught
      exact (hd code args g t' (hcode code (by simp)) hg).before (hy.tail hcaught)
    · rw [if_neg hh]
      exact Setting.Raises.below hr (passive_arms [(codes, BitVec.ofNat 64 z)] (by simp)
        (by simpa using hcodes) (by simp [hh]))

/-! ### Scattering assignments -/

/-- The targets are bound by the instruction, and the machine goes on at a default. -/
theorem ends_targets {b c done : ℕ} {sc : Scatter} {ts : List (ℕ×ℕ)}
    (hi : s.v.instr d (.scatter sc.length (Scatter.nreq sc) (Scatter.rest sc) ts done) b c)
    (hl : Labelled sc ts) (hw : unmarked w) (hf : f.Clean) :
    s.Ends ⟨b, w::st, f.regs t⟩ st
      (fun ps g y => ∃ l, w = .list l ∧ sc.rests ≤ 1 ∧ Suits sc l ∧ ps = piecesOf sc l ∧ g.Clean ∧
        y = ⟨if entry sc ps ts = 0 then done else entry sc ps ts, w::st, g.regs t⟩)
      (bindTargets s.host sc w f) := by
  have herr : ∀ er : Err, unmarked (.err er) := fun _ => trivial
  cases w with
  | list l =>
    rw [bindTargets]
    split
    · next hok =>
      have hr : sc.rests ≤ 1 := by
        have := hok.1
        simp only [Scatter.vet, Bool.and_eq_true, decide_eq_true_eq] at this
        exact this.1.1
      by_cases hs : Suits sc l
      · rw [if_pos hs]
        have hscatter : scatter sc.length (Scatter.nreq sc) (Scatter.rest sc) ts done
            ⟨c, .list l::st, f.regs t⟩ = _ := scatter_next (l := ⟨l, hok.2⟩) hr hl hs
        have hmove := congrArg moveOf hscatter
        rw [assign_regs] at hmove
        refine ⟨_, adv_one hi hmove, l, rfl, hr, hs, rfl, hf.assign ?_, rfl⟩
        exact unmarked_pieces (unmarked_list.mp hw)
      · rw [if_neg hs]
        have hscatter : scatter sc.length (Scatter.nreq sc) (Scatter.rest sc) ts done
            ⟨c, .list l::st, f.regs t⟩ = _ := scatter_args (l := ⟨l, hok.2⟩) hs
        have hmove := congrArg moveOf hscatter
        exact ends_raise [.err .args] hi hmove (fun u hu => by
          rw [List.mem_singleton.mp hu]
          exact herr .args) hf
    · trivial
  | _ =>
    exact ends_raise (k := done) [.err .type] hi rfl (fun u hu => by
      rw [List.mem_singleton.mp hu]
      exact herr .type) hf

/-- One default: its value goes into its variable. -/
theorem ends_default {b c x id : ℕ} {m : Eval σ Var} {cont : Eval σ Unit}
    {K : Unit → Frame σ → Activ (Regs σ) → Prop}
    (hput : s.v.instr k (.put (isReady id) id) b c) (hpop : s.v.instr k .pop c x)
    (hm : s.Ends ⟨a, st, f.regs t⟩ st (s.At b st) (m f))
    (hcont : ∀ g t, g.Clean → s.Ends ⟨x, st, g.regs t⟩ st K (cont g)) :
    s.Ends ⟨a, st, f.regs t⟩ st K ((do
      let v ← m
      Eval.setVar id v
      cont) f) := by
  refine hm.bind fun w g y hy => ?_
  obtain ⟨t', hw, hg, rfl⟩ := hy.top (starts_of_instr hput (by simp))
  exact (hcont (g.set id w) t' (hg.set hw)).before (adv_steps (put_pop hput hpop))

/-- The first element of a list. -/
theorem ends_first {b c : ℕ} {kind : ArgKind} {m : Eval σ Var} {cont : Var → Eval σ α}
    {K : α → Frame σ → Activ (Regs σ) → Prop} (hi : s.v.instr k (firstInstr kind) b c)
    (hm : s.Ends ⟨a, st, f.regs t⟩ st (s.At b st) (m f))
    (hcont : ∀ l g t, unmarked l → g.Clean → s.Ends ⟨c, l::st, g.regs t⟩ st K (cont l g)) :
    s.Ends ⟨a, st, f.regs t⟩ st K ((do
      let v ← m
      let l ← Eval.call s.host (given (firstList kind v))
      cont l) f) := by
  refine hm.bind fun v g y hy => ?_
  obtain ⟨t', hv, hg, rfl⟩ := hy.top (starts_of_instr hi (by cases kind <;> simp [firstInstr]))
  have hcall : execInstr s.host s.T s.v.bc (firstInstr kind) ⟨c, v::st, g.regs t'⟩ =
      call ⟨c, v::st, g.regs t'⟩ st (given (firstList kind v)) := by
    cases kind <;> rfl
  refine (ends_call hi hcall (answers_given (given_firstList kind hv)) hg).bind fun u g y hy => ?_
  obtain ⟨hu, hg, rfl⟩ := hy
  exact hcont u g t' hu hg

omit [FloatOps] in
theorem starts_store (h : CodeStore s.v k e a a') : s.Starts a := by
  cases e with
  | range base lo hi =>
    obtain ⟨b, hi, -⟩ := h
    exact starts_of_instr hi (by simp)
  | index base index =>
    obtain ⟨b, hi, -⟩ := h
    exact starts_of_instr hi (by simp)
  | id slot => exact starts_of_instr h (by simp)
  | prop obj name => exact starts_of_instr h (by simp)
  | _ => exact h.elim

omit [FloatOps] in
theorem starts_storeRhs (h : CodeStoreRhs s.v d e a a') : s.Starts a := by
  unfold CodeStoreRhs at h
  dsimp only at h
  split at h
  · obtain ⟨b, c, x, hi, -⟩ := h
    exact starts_of_instr hi (by simp)
  · exact starts_store h

/-- An assignment, once its parts are known to be evaluated. -/
theorem ends_asgn {b c : ℕ} {place : Eval σ Place} {value : Eval σ Var}
    (hd : Sits d saved dollar st) (hstore : CodeStoreRhs s.v d e c a')
    (hplace : s.Ends ⟨a, st, f.regs t⟩ st (AtPlace b st e) (place f))
    (hvalue : ∀ st' g t, Sits (d+lvalueDepth e false) saved dollar st' → g.Clean →
      s.Ends ⟨b, st', g.regs t⟩ st' (s.At c st') (value g)) :
    s.Ends ⟨a, st, f.regs t⟩ st (s.At a' st) ((do
      let p ← place
      let v ← value
      let w ← storePlace s.host p v
      return if Expr.isIndexed e then v else w) f) := by
  refine hplace.bind fun p g y hy => ?_
  obtain ⟨hs, hops, hg, t', rfl⟩ := hy
  have hd' := hd.pushes p.operands
  rw [← (shape_depth hs).1] at hd'
  refine ((hvalue _ g t' hd' hg).below hops).bind fun v g y hy => ?_
  obtain ⟨t', hv, hg, rfl⟩ := hy.top (starts_storeRhs hstore)
  exact ends_assign hs hops hstore hv hg

end Cases

end Steps

end LambdaMoo.Run
