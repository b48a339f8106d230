import LambdaMoo.Completions

/-!
# Steps of statements

What the instructions of loops, handlers and `finally` statements do, given
what those of their bodies do.
-/

set_option autoImplicit false

namespace LambdaMoo.Run
open LambdaMoo.Execute LambdaMoo.CodeGen

section Steps
variable {σ : Type} [FloatOps] {s : Setting σ}

section Cases
variable {st : List Var} {f : Frame σ} {t : Var} {a a' b c d e k x y id : ℕ} {v w : Var}
  {loops : List LoopAt}

/-! ## Loops -/

/-- A body for each value, where the machine counts them on the stack. -/
theorem ends_overValues (test : ℕ → List Var) (values : List Var) {vs : List Var}
    {body : Eval σ Way}
    (htest : ∀ k, ∃ us, test k = us++st ∧ us.length = 2 ∧ ∀ u ∈ us, unmarked u)
    (hnext : ∀ k w f t, values[k]? = some w →
      s.Adv ⟨c, test k, Frame.regs f t⟩ ⟨x, test (k+1), (f.set id w).regs t⟩)
    (hend : ∀ f t, s.Adv ⟨c, test values.length, Frame.regs f t⟩ ⟨a', st, f.regs t⟩)
    (hjump : s.v.instr d (.jump c) y b) (hun : ∀ w ∈ values, unmarked w)
    (hbody : ∀ k f t, f.Clean → s.Ends ⟨x, test (k+1), f.regs t⟩ (test (k+1))
      (s.Ways (⟨some id, c, st.length+2, a', st.length⟩::loops) y (test (k+1))) (body f))
    (hd : values.drop k = vs) (hk : k ≤ values.length) (hf : f.Clean) :
    s.Ends ⟨c, test k, f.regs t⟩ st (s.Ways loops a' st) (overValues id body vs f) := by
  induction vs generalizing k f t with
  | nil =>
    obtain rfl := Nat.le_antisymm hk (List.drop_eq_nil_iff.mp hd)
    exact ⟨_, hend f t, hf, t, rfl⟩
  | cons w vs ih =>
    obtain ⟨hw, hrest⟩ := drop_cons hd
    obtain ⟨us, hus, hlen, hunmarked⟩ := htest (k+1)
    have hlt := (List.getElem?_eq_some_iff.mp hw).1
    have hset : (f.set id w).Clean := hf.set (hun w (List.mem_of_getElem? hw))
    have hround := hbody k (f.set id w) t hset
    rw [hus] at hround
    refine Setting.Ends.before (hnext k w f t hw) ?_
    rw [hus]
    refine ends_loop us (f := f.set id w) hunmarked rfl ?_ hjump hround fun g t hg => ?_
    · rw [List.length_append, hlen, Nat.add_comm]
    · rw [← hus]
      exact ih hrest hlt hg

theorem adv_forList {l : Elements} {n : Num} (hn : n.toInt = (k+1 : ℕ))
    (hi : s.v.instr d (.forList id a') c x) (hw : l.list[k]? = some w) :
    s.Adv ⟨c, .int n::.list l.list::st, f.regs t⟩
      ⟨x, .int (n+1)::.list l.list::st, (f.set id w).regs t⟩ := by
  have hstep : forList id a' ⟨x, .int n::.list l.list::st, f.regs t⟩ = _ := forList_element hn hw
  exact adv_one hi (congrArg moveOf hstep)

theorem adv_forList_end {l : Elements} {n : Num} (hn : n.toInt = (l.list.length+1 : ℕ))
    (hi : s.v.instr d (.forList id a') c x) :
    s.Adv ⟨c, .int n::.list l.list::st, f.regs t⟩ ⟨a', st, f.regs t⟩ := by
  have hstep : forList id a' ⟨x, .int n::.list l.list::st, f.regs t⟩ = _ := forList_end hn
  exact adv_one hi (congrArg moveOf hstep)

theorem ends_forList {l : Elements} {body : Eval σ Way} (hi : s.v.instr d (.forList id a') c x)
    (hjump : s.v.instr e (.jump c) y b) (hl : unmarked (.list l.list))
    (hbody : ∀ k f t, f.Clean → s.Ends ⟨x, listCells l.list st k, f.regs t⟩ (listCells l.list st k)
      (s.Ways (⟨some id, c, st.length+2, a', st.length⟩::loops) y (listCells l.list st k)) (body f))
    (hf : f.Clean) : s.Ends ⟨c, .int 1::.list l.list::st, f.regs t⟩ st (s.Ways loops a' st)
      (overValues id body l.list f) := by
  refine ends_overValues (k := 0) (fun k => .int (BitVec.ofNat 64 (k+1))::.list l.list::st) l.list
    (fun k => ?_) (fun k w f t hw => ?_) (fun f t => ?_) hjump (unmarked_list.mp hl) hbody rfl (Nat.zero_le _) hf
  · refine ⟨[.int (BitVec.ofNat 64 (k+1)), .list l.list], rfl, rfl, fun u hu => ?_⟩
    rcases List.mem_pair.mp hu with rfl | rfl
    · trivial
    · exact hl
  · have hlt := (List.getElem?_eq_some_iff.mp hw).1
    have hstep : s.Adv ⟨c, .int (BitVec.ofNat 64 (k+1))::.list l.list::st, f.regs t⟩ _ :=
      adv_forList (ofNat_toInt (index_small l hlt.le)) hi hw
    rw [ofNat_succ] at hstep
    exact hstep
  · exact adv_forList_end (ofNat_toInt (index_small l (Nat.le_refl _))) hi

omit [FloatOps] in
theorem rangeCells_split {mk : Num → Var} (hmk : mk = Var.int ∨ mk = Var.obj) (lo hi : Num) (k : ℕ) :
    ∃ us, rangeCells mk lo hi st k = us++st ∧ us.length = 2 ∧ ∀ u ∈ us, unmarked u := by
  have hum : ∀ n, unmarked (mk n) := by
    intro n
    rcases hmk with rfl | rfl
    · trivial
    · trivial
  rw [rangeCells]
  split
  · exact ⟨[_, _], rfl, rfl, by simp [hum]⟩
  · exact ⟨[_, _], rfl, rfl, by simp [hum]⟩

theorem ends_forRange {mk : Num → Var} {lo hi : Num} {body : Eval σ Way}
    (hmk : mk = Var.int ∨ mk = Var.obj) (hi' : s.v.instr d (.forRange id a') c x)
    (hjump : s.v.instr e (.jump c) y b)
    (hbody : ∀ k f t, f.Clean → s.Ends ⟨x, rangeCells mk lo hi st k, f.regs t⟩
      (rangeCells mk lo hi st k)
      (s.Ways (⟨some id, c, st.length+2, a', st.length⟩::loops) y (rangeCells mk lo hi st k))
      (body f))
    (hf : f.Clean) : s.Ends ⟨c, mk hi::mk lo::st, f.regs t⟩ st (s.Ways loops a' st)
      (overValues id body (rangeValues mk lo hi) f) := by
  have hum : ∀ n, unmarked (mk n) := by
    intro n
    rcases hmk with rfl | rfl
    · trivial
    · trivial
  have hlen : (rangeValues mk lo hi).length = (hi.toInt-lo.toInt+1).toNat := by
    rw [rangeValues, List.length_map, List.length_range]
  refine ends_overValues (k := 0) (rangeTest mk lo hi st) (rangeValues mk lo hi) (fun k => ?_)
    (fun k w f t hw => ?_) (fun f t => ?_) hjump (fun w hw => ?_) hbody rfl (Nat.zero_le _) hf
  · cases k with
    | zero => exact ⟨[mk hi, mk lo], rfl, rfl, by simp [hum]⟩
    | succ k => exact rangeCells_split hmk lo hi k
  · have hlt := (List.getElem?_eq_some_iff.mp hw).1
    rw [rangeValues, List.length_map, List.length_range] at hlt
    rw [rangeValues, List.getElem?_map, List.getElem?_range hlt] at hw
    obtain rfl := Option.some.inj hw
    have hle : lo.toInt+k ≤ hi.toInt := by omega
    have hnext : forRange id a' ⟨x, rangeTest mk lo hi st k, f.regs t⟩ =
        .ok (.next ⟨x, rangeCells mk lo hi st k,
          (f.regs t).set id (mk (lo+BitVec.ofNat 64 k))⟩) := by
      rw [rangeTest_value hle, forRange_bounds hmk, forBounds_value hle]
    exact adv_one hi' (congrArg moveOf hnext)
  · obtain ⟨lo', hi'', hcells, hgt⟩ := rangeTest_end mk st (Eq.refl (hi.toInt-lo.toInt+1).toNat)
    have hstop : forRange id a' ⟨x, mk hi''::mk lo'::st, f.regs t⟩ =
        .ok (.next ⟨a', st, f.regs t⟩) := by
      rw [forRange_bounds hmk, forBounds, if_pos hgt]
    rw [hlen, hcells]
    exact adv_one hi' (congrArg moveOf hstop)
  · obtain ⟨k, -, rfl⟩ := List.mem_map.mp hw
    exact hum _

/-- The rounds that are allowed for are the induction. -/
theorem ends_while {cond : Eval σ Var} {body : Eval σ Way} {id : Option ℕ} (n : ℕ)
    (hcond : ∀ f t, Frame.Clean f →
      s.Ends ⟨a, st, f.regs t⟩ st (s.At b st) (cond f))
    (htest : CodeTest s.v k id a' b c)
    (hbody : ∀ f t, Frame.Clean f → s.Ends ⟨c, st, f.regs t⟩ st
      (s.Ways (⟨id, a, st.length, a', st.length⟩::loops) x st) (body f))
    (hjump : s.v.instr d (.jump a) x y) (hf : f.Clean) :
    s.Ends ⟨a, st, f.regs t⟩ st (s.Ways loops a' st) (whileTrue id cond body n f) := by
  induction n generalizing f t with
  | zero => trivial
  | succ n ih =>
    have hround : ∀ g t, Frame.Clean g → s.Ends ⟨c, st, g.regs t⟩ st (s.Ways loops a' st)
        ((body >>= loopOn id (whileTrue id cond body n)) g) := by
      intro g t hg
      exact ends_loop [] (l := ⟨id, a, st.length, a', st.length⟩) (by simp) rfl rfl hjump
        (hbody g t hg) fun g t hg => ih hg
    rw [whileTrue]
    refine (hcond f t hf).bind fun v g y hy => ?_
    cases id with
    | none =>
      obtain ⟨t', hv, hg, rfl⟩ := hy.top (starts_of_instr htest (by simp))
      have hstep : s.Adv ⟨b, v::st, g.regs t'⟩ _ := adv_one htest rfl
      change s.Ends _ _ _ ((if isTrue v = true then body >>= loopOn none (whileTrue none cond body n)
        else pure Way.fall : Eval σ Way) g)
      by_cases hv' : isTrue v = true
      · rw [if_pos hv'] at hstep ⊢
        exact (hround g t' hg).before hstep
      · rw [if_neg hv'] at hstep ⊢
        exact ⟨_, hstep, hg, t', rfl⟩
    | some id =>
      obtain ⟨t', hv, hg, rfl⟩ := hy.top (starts_of_instr htest (by simp))
      have hstep : s.Adv ⟨b, v::st, g.regs t'⟩ _ := adv_one htest rfl
      change s.Ends _ _ _ ((if isTrue v = true then
        body >>= loopOn (some id) (whileTrue (some id) cond body n)
        else pure Way.fall : Eval σ Way) (g.set id v))
      by_cases hv' : isTrue v = true
      · rw [if_pos hv'] at hstep ⊢
        exact (hround _ t' (hg.set hv)).before hstep
      · rw [if_neg hv'] at hstep ⊢
        exact ⟨_, hstep, hg.set hv, t', rfl⟩

end Cases

/-! ## Handlers -/

section Handlers
variable {st us : List Var} {f : Frame σ} {t : Var} {a a' b c d e x y : ℕ} {v w value : Var}
  {loops : List LoopAt}

omit [FloatOps] in
theorem handlers_length {T : Tables} {v : Vec} {arms : ExceptArms} {hs : List ℕ}
    (h : CodeHandlers T v d arms hs a a') : hs.length = arms.length := by
  fun_induction CodeHandlers T v d arms hs a a' with
  | case1 d hs a a' =>
    rw [h.1]
    rfl
  | case2 d id codes stmt next hs a a' ih =>
    obtain ⟨h, hs, b, c, rfl, -, -, hnext⟩ := h
    rw [List.length_cons, ih hs c hnext]
    rfl

def armsOf (codes : List Var) (hs : List ℕ) : List (Var×Num) :=
  codes.zip (hs.map fun h => BitVec.ofNat 64 h)

section Find
variable {code codes : Var} {rest : List Var} {h : ℕ} {hs : List ℕ}

omit [FloatOps] in
theorem find_armsOf_here (hc : handles code codes = true) :
    (armsOf (codes::rest) (h::hs)).find? (fun arm => handles code arm.1) =
      some (codes, BitVec.ofNat 64 h) := by
  simp [armsOf, hc]

omit [FloatOps] in
theorem find_armsOf_there (hc : ¬handles code codes = true) :
    (armsOf (codes::rest) (h::hs)).find? (fun arm => handles code arm.1) =
      (armsOf rest hs).find? fun arm => handles code arm.1 := by
  simp [armsOf, hc]

end Find

/-- The codes and labels of the arms are pushed in order. -/
theorem handlers_ends (arms : ExceptArms) {d a : ℕ} {hs : List ℕ} {st : List Var} {f : Frame σ}
    {t : Var} (h : CodeHandlers s.T s.v d arms hs a a') (hd : st.length = d) (hf : f.Clean) :
    s.Ends ⟨a, st, f.regs t⟩ st (fun codes g y => codes.length = arms.length ∧
        (∀ v ∈ codes, unmarked v) ∧ g.Clean ∧
        ∃ t, y = ⟨a', (armVars (armsOf codes hs)).reverse++st, g.regs t⟩)
      (evalHandlers s.host arms f) := by
  cases arms with
  | nil =>
    obtain ⟨rfl, rfl⟩ := h
    exact .pure ⟨rfl, by simp, hf, t, rfl⟩
  | cons id codes stmt next =>
    obtain ⟨h, hs, b, c, rfl, hcodes, hpush, hnext⟩ := h
    have hsits : Sits d none none st := ⟨hd, fun i hi => by cases hi⟩
    rw [evalHandlers]
    refine (codes_ends codes hcodes hsits hf).bind fun v g y hy => ?_
    obtain ⟨t', hv, hg, rfl⟩ := hy.top (starts_of_instr hpush (by simp))
    have hpushed : s.Adv ⟨b, v::st, g.regs t'⟩
        ⟨c, [.int (BitVec.ofNat 64 h), v]++st, g.regs t'⟩ := adv_one hpush rfl
    have hdepth : ([.int (BitVec.ofNat 64 h), v]++st).length = d+2 := by
      simp [hd]
    refine (((handlers_ends next hnext hdepth hg).below ?_).before hpushed).bind fun vs g y hy => ?_
    · simpa [unmarked] using hv
    · obtain ⟨hlen, hvs, hg, t', rfl⟩ := hy
      refine .pure ⟨?_, ?_, hg, t', ?_⟩
      · rw [List.length_cons, hlen]
        rfl
      · simpa [hv] using hvs
      · simp [armsOf, armVars]

/-- The handler goes on with the way out that the body took, or with its own. -/
theorem ends_resume (us : List Var) {handler cont : Eval σ Way} (hus : ∀ u ∈ us, unmarked u)
    (hhandler : s.Ends ⟨x, us++st, f.regs t⟩ (us++st) (s.Ways loops y (us++st)) (handler f))
    (hcont : ∀ g t, g.Clean → s.Ends ⟨y, us++st, g.regs t⟩ st (s.Ways loops a' st) (cont g)) :
    s.Ends ⟨x, us++st, f.regs t⟩ st (s.Ways loops a' st) ((handler >>= thenDo cont) f) := by
  refine (hhandler.below hus).bind fun way g z hz => ?_
  have hout : way ≠ .fall → s.Ends z st (s.Ways loops a' st) ((pure way : Eval σ Way) g) :=
    fun hw => .pure (ways_below hz hw (.values hus) (.values hus))
  cases way with
  | fall =>
    obtain ⟨hg, t', rfl⟩ := hz
    exact hcont g t' hg
  | «return» v => exact hout (by simp)
  | «break» exit => exact hout (by simp)
  | «continue» exit => exact hout (by simp)

omit [FloatOps] in
theorem findLoopAt_mem {exit : Option ℕ} {l : LoopAt} (h : findLoopAt exit loops = some l) :
    l ∈ loops := by
  cases exit with
  | none => exact List.mem_of_mem_head? h
  | some id => exact List.mem_of_find?_eq_some h

omit [FloatOps] in
theorem reasonOf_toNum {why : Reason} (h : why ≠ .fallThru) (h' : why ≠ .abort) :
    why.toNum ≠ 0 ∧ reasonOf why.toNum = some why := by
  cases why with
  | fallThru => exact absurd rfl h
  | abort => exact absurd rfl h'
  | _ => exact ⟨by decide, by decide⟩

/-- `EOP_CONTINUE` after something other than falling through. -/
theorem move_continue {why : Reason} (hi : s.v.instr d .continue a a') (h : why ≠ .fallThru)
    (h' : why ≠ .abort) : move s.host s.T s.v.bc ⟨a, value::.int why.toNum::st, f.regs t⟩ =
      .ok (.unwind why value ⟨a', st, f.regs t⟩) := by
  obtain ⟨hne, hof⟩ := reasonOf_toNum h h'
  have hgo : opContinue ⟨a', value::.int why.toNum::st, f.regs t⟩ =
      .ok (.unwind why value ⟨a', st, f.regs t⟩) := by
    simp only [opContinue, if_neg hne, hof]
    rfl
  rw [move, hi.1]
  exact hgo

/-- An error that a `finally` has stopped, and how it goes on. -/
inductive Stopped (code : Var) (args st : List Var) : Reason → Var → Prop
  | raise : Stopped code args st .raise (.list (code::args))
  | uncaught (h : findHandlerRt code st = .ok false) : Stopped code args st .uncaught zero

theorem thrown_stopped {code : Var} {args ws : List Var} {n : Num} {z z' : Activ (Regs σ)}
    {m : Move σ} (ho : Orderly st) (hm : move s.host s.T s.v.bc z = .ok m)
    (ht : Setting.Thrown s.host code args z' m) (hz : z'.stack = ws++(.finally n::st))
    (hp : Passive code ws) : ∃ why value, Stopped code args st why value ∧
      advance s.host s.T s.v.bc z =
        .ok (.next ⟨n.toNat, value::.int why.toNum::st, z'.frame⟩) := by
  have hfind : findHandlerRt code z'.stack = findHandlerRt code st := by
    rw [hz, hp.find, findHandlerRt_value (by simp [Var.type])]
  have hraise : unwind .raise (.list (code::args)) z' =
      .ok (.next ⟨n.toNat, .list (code::args)::.int Reason.raise.toNum::st, z'.frame⟩) := by
    rw [unwind, unwindFrame, hz, hp.raise _ _ _ (Nat.zero_le _),
      unwindRt_finally (by simp) (Nat.zero_le _)]
    rfl
  have huncaught : unwind .uncaught zero z' =
      .ok (.next ⟨n.toNat, zero::.int Reason.uncaught.toNum::st, z'.frame⟩) := by
    rw [unwind, unwindFrame, hz, hp.uncaught _ _ _ (Nat.zero_le _),
      unwindRt_finally (by simp) (Nat.zero_le _)]
    · rfl
    all_goals simp
  rw [advance, hm]
  cases ht with
  | raise h =>
    obtain ⟨b, hb⟩ := ho code
    change ∃ why value, _ ∧ raised s.host code z' = _
    rw [raised, hfind, hb]
    change ∃ why value, _ ∧ (if (b || _) = true then _ else _) = _
    by_cases hc : (b || s.host.catches code z'.frame.world.world) = true
    · rw [if_pos hc, ← h]
      exact ⟨_, _, .raise, hraise⟩
    · rw [if_neg hc]
      have hfalse : b = false := by
        cases b with
        | false => rfl
        | true => simp at hc
      rw [hfalse] at hb
      exact ⟨_, _, .uncaught hb, huncaught⟩
  | again => exact ⟨_, _, .raise, hraise⟩
  | uncaught h => exact ⟨_, _, .uncaught (hfind.symm.trans h), huncaught⟩

/-- An exit that meets the marker of a `finally` goes to its handler, with what it is for. -/
theorem exits_finally {n k label : ℕ} (hx : n < 2^64) {g : Frame σ} {z : Activ (Regs σ)}
    (hk : k ≤ st.length) (hz : s.Exits k label (.finally (BitVec.ofNat 64 n)::st) g z) :
    ∃ t, g.Clean ∧ s.Adv z ⟨n, exitValue k label::.int Reason.exit.toNum::st, g.regs t⟩ := by
  have hn : (BitVec.ofNat 64 n).toNat = n := by
    rw [BitVec.toNat_ofNat, Nat.mod_eq_of_lt hx]
  obtain ⟨hk', hlabel, hg, z', ws, t, hm, hstack, hframe, hp⟩ := hz
  refine ⟨t, hg, .single ?_⟩
  have hgoal : (BitVec.ofNat 64 k).toNat = k := by
    rw [BitVec.toNat_ofNat, Nat.mod_eq_of_lt hk']
  rw [advance_unwind hm, unwind, exitValue, unwindFrame, hgoal, hstack,
    hp _ _ _ (by simp; omega), unwindRt_finally (by simp) hk, hn, hframe]
  rfl

/-- A value that is returned meets the marker of a `finally` likewise. -/
theorem returns_finally {n : ℕ} (hx : n < 2^64) {v : Var} {g : Frame σ} {z : Activ (Regs σ)}
    (hz : s.Unwinds .return v (.finally (BitVec.ofNat 64 n)::st) g z) :
    ∃ t, g.Clean ∧ s.Adv z ⟨n, v::.int Reason.return.toNum::st, g.regs t⟩ := by
  have hn : (BitVec.ofNat 64 n).toNat = n := by
    rw [BitVec.toNat_ofNat, Nat.mod_eq_of_lt hx]
  obtain ⟨hg, z', ws, t, hm, hstack, hframe, hp⟩ := hz
  refine ⟨t, hg, .single ?_⟩
  rw [advance_unwind hm, unwind, unwindFrame, hstack, hp _ _ _ (Nat.zero_le _),
    unwindRt_finally (by simp) (Nat.zero_le _), hn, hframe]
  · rfl
  all_goals simp

/-- `EOP_CONTINUE` takes up what was pending. -/
theorem continue_unwinds (hcont : s.v.instr e .continue y a') {why : Reason} (value : Var)
    (g : Frame σ) (t : Var) (h : why ≠ .fallThru) (h' : why ≠ .abort) (hg : g.Clean) :
    s.Unwinds why value st g ⟨y, value::.int why.toNum::st, g.regs t⟩ :=
  ⟨hg, ⟨a', st, g.regs t⟩, [], t, move_continue hcont h h', rfl, rfl, .nil⟩

/-- A `finally` statement, once it is known what its body and its handler do. -/
theorem ends_finally {n : ℕ} {body handler : Eval σ Way} (hx : n < 2^64) (ho : Orderly st)
    (hloops : ∀ l ∈ loops, l.topStack ≤ st.length ∧ l.bottomStack ≤ st.length)
    (hend : s.v.instr d .endFinally c n) (hcont : s.v.instr e .continue y a')
    (hbody : s.Ends ⟨b, .finally (BitVec.ofNat 64 n)::st, f.regs t⟩
      (.finally (BitVec.ofNat 64 n)::st) (s.Ways loops c (.finally (BitVec.ofNat 64 n)::st)) (body f))
    (hhandler : ∀ u v g t, unmarked u → unmarked v → g.Clean →
      s.Ends ⟨n, [u, v]++st, g.regs t⟩ ([u, v]++st) (s.Ways loops y ([u, v]++st)) (handler g)) :
    s.Ends ⟨b, .finally (BitVec.ofNat 64 n)::st, f.regs t⟩ st (s.Ways loops a' st)
      (finallyDo body handler f) := by
  have hn : (BitVec.ofNat 64 n).toNat = n := by
    rw [BitVec.toNat_ofNat, Nat.mod_eq_of_lt hx]
  -- The handler runs above the reason and the value, and `EOP_CONTINUE` takes them up again.
  have resume : ∀ (why : Reason) (value : Var) (cont : Eval σ Way) (g : Frame σ) (t : Var),
      unmarked value → g.Clean → (∀ g t, g.Clean →
        s.Ends ⟨y, value::.int why.toNum::st, g.regs t⟩ st (s.Ways loops a' st) (cont g)) →
      s.Ends ⟨n, value::.int why.toNum::st, g.regs t⟩ st (s.Ways loops a' st)
        ((handler >>= thenDo cont) g) := by
    intro why value cont g t hv hg hc
    exact ends_resume [value, .int why.toNum] (by simpa [unmarked] using hv)
      (hhandler value (.int why.toNum) g t hv trivial hg) hc
  have leave : ∀ (exit : Option ℕ) (mk : Option ℕ → Way) (side : LoopAt → ℕ×ℕ) (l : LoopAt)
      (g : Frame σ) (z : Activ (Regs σ)),
      (∀ g z, (∃ l, findLoopAt exit loops = some l ∧ s.Exits (side l).1 (side l).2 st g z) →
        s.Ways loops a' st (mk exit) g z) → findLoopAt exit loops = some l →
      (side l).1 ≤ st.length → s.Exits (side l).1 (side l).2 (.finally (BitVec.ofNat 64 n)::st) g z →
      s.Ends z st (s.Ways loops a' st) ((handler >>= thenDo (pure (mk exit))) g) := by
    intro exit mk side l g z hmk hl hk hz
    obtain ⟨t', hg, hadv⟩ := exits_finally hx hk hz
    refine (resume .exit _ (pure (mk exit)) g t' ?_ hg fun g t hg => ?_).before hadv
    · simp [exitValue, unmarked, unmarkedList]
    · refine .pure (hmk g _ ⟨l, hl, hz.1, hz.2.1, continue_unwinds hcont _ g t (by simp) (by simp) hg⟩)
  rw [finallyDo]
  cases hres : body f with
  | error er => trivial
  | ok p =>
    rw [hres] at hbody
    cases p with
    | value way g =>
      obtain ⟨z, hz, hway⟩ := hbody
      refine Setting.Ends.before hz ?_
      change s.Ends _ _ _ ((handler >>= thenDo (pure way)) g)
      cases way with
      | fall =>
        obtain ⟨hg, t', rfl⟩ := hway
        refine (resume .fallThru zero (pure .fall) g t' trivial hg fun g t hg => ?_).before
          (adv_one hend rfl)
        exact ⟨_, adv_one hcont rfl, hg, t, rfl⟩
      | «return» v =>
        obtain ⟨hv, hunwinds⟩ := hway
        obtain ⟨t', hg, hadv⟩ := returns_finally hx hunwinds
        refine (resume .return v (pure (.return v)) g t' hv hg fun g t hg => ?_).before hadv
        exact .pure ⟨hv, continue_unwinds hcont v g t (by simp) (by simp) hg⟩
      | «break» exit =>
        obtain ⟨l, hl, hexit⟩ := hway
        have hmem : l ∈ loops := findLoopAt_mem hl
        exact leave exit .break (fun l => (l.bottomStack, l.bottom)) l g z (fun _ _ h => h) hl
          (hloops l hmem).2 hexit
      | «continue» exit =>
        obtain ⟨l, hl, hexit⟩ := hway
        have hmem : l ∈ loops := findLoopAt_mem hl
        exact leave exit .continue (fun l => (l.topStack, l.top)) l g z (fun _ _ h => h) hl
          (hloops l hmem).1 hexit
    | raise code args g =>
      obtain ⟨hargs, hg, z, z', m, ws, t', hz, hm, ht, hstack, hframe, hp⟩ := hbody
      obtain ⟨why, value, hstopped, hadv⟩ := thrown_stopped ho hm ht hstack hp
      rw [hn, hframe] at hadv
      have hvalue : unmarked value := by
        cases hstopped with
        | raise => exact unmarked_list.mpr hargs
        | uncaught h => trivial
      change s.Ends _ _ _ ((handler >>= thenDo (Eval.reraise code args)) g)
      refine (resume why value (Eval.reraise code args) g t' hvalue hg fun g t hg => ?_).before
        (hz.tail hadv)
      cases hstopped with
      | raise =>
        exact ⟨hargs, hg, _, ⟨a', st, g.regs t⟩, _, [], t, .refl,
          move_continue hcont (by simp) (by simp), .again, rfl, rfl, .nil⟩
      | uncaught h =>
        exact ⟨hargs, hg, _, ⟨a', st, g.regs t⟩, _, [], t, .refl,
          move_continue hcont (by simp) (by simp), .uncaught h, rfl, rfl, .nil⟩

end Handlers

end Steps

end LambdaMoo.Run
