import LambdaMoo.Handlers

/-!
# Whose authority a built-in function resumes with

A built-in function that called a verb is entered again when the verb is
over. On the way of a return the programmer is read from the frame of the
caller; on the way of an error or abort it is read from the frame that has
just been left, where the verb was and where the next verb will be.
-/

set_option autoImplicit false

namespace LambdaMoo.Execute

section
variable {δ σ : Type}

def BiCall.Authorized (c : BiCall) : Prop := c.progr = c.caller

/-- The verbs that a built-in function goes on to call, resumed as its caller, all run as its
caller. -/
def RunsAs (sv : Server δ σ) (id : ℕ) (caller : Objid) (rest : List (Activation δ)) :
    ℕ → ℕ → δ → σ → Prop
  | 0, _, _, _ => True
  | fuel+1, pc, data, w =>
    match sv.callBiFunc id zero pc caller data rest w with
    | (.call pc' data' pushed, w') =>
      pc' ≠ 0 → pushed.progr = caller ∧ RunsAs sv id caller rest fuel pc' data' w'
    | _ => True

theorem shortCircuit_authorized {sv : Server δ σ} {id : ℕ} {caller : Objid}
    {rest : List (Activation δ)} {fuel pc : ℕ} {progr : Objid} {data : δ} {w : σ}
    {calls : List BiCall} {w' : σ}
    (h : shortCircuit sv id caller rest fuel pc progr data w = .ok (calls, w')) :
    (∀ c ∈ calls, c.Authorized) ↔ progr = caller ∧ RunsAs sv id caller rest fuel pc data w := by
  induction fuel generalizing pc progr data w calls w' with
  | zero => cases h
  | succ fuel ih =>
    rw [shortCircuit] at h
    rw [RunsAs]
    by_cases hp : progr = caller
    · subst hp
      cases hcall : sv.callBiFunc id zero pc progr data rest w with
      | mk p w1 =>
        rw [hcall] at h
        cases p with
        | call pc' data' pushed =>
          dsimp only at h ⊢
          by_cases hpc : pc' = 0
          · rw [if_pos hpc, Except.ok.injEq, Prod.mk.injEq] at h
            obtain ⟨rfl, rfl⟩ := h
            simp [BiCall.Authorized, hpc]
          · rw [if_neg hpc] at h
            obtain ⟨⟨calls', w2⟩, hs, hr⟩ := bind_ok.mp h
            rw [pure_ok, Prod.mk.injEq] at hr
            obtain ⟨rfl, rfl⟩ := hr
            rw [List.forall_mem_cons, ih hs]
            simp [BiCall.Authorized, hpc]
        | _ =>
          rw [Except.ok.injEq, Prod.mk.injEq] at h
          obtain ⟨rfl, rfl⟩ := h
          simp [BiCall.Authorized]
    · have hmem : ∃ c ∈ calls, c.progr = progr ∧ c.caller = caller := by
        cases hcall : sv.callBiFunc id zero pc progr data rest w with
        | mk p w1 =>
          rw [hcall] at h
          cases p with
          | call pc' data' pushed =>
            dsimp only at h
            by_cases hpc : pc' = 0
            · rw [if_pos hpc, Except.ok.injEq, Prod.mk.injEq] at h
              exact ⟨_, h.1 ▸ List.mem_cons_self, rfl, rfl⟩
            · rw [if_neg hpc] at h
              obtain ⟨⟨calls', w2⟩, hs, hr⟩ := bind_ok.mp h
              rw [pure_ok, Prod.mk.injEq] at hr
              exact ⟨_, hr.1 ▸ List.mem_cons_self, rfl, rfl⟩
          | _ =>
            rw [Except.ok.injEq, Prod.mk.injEq] at h
            exact ⟨_, h.1 ▸ List.mem_cons_self, rfl, rfl⟩
      obtain ⟨c, hc, hcp, hcc⟩ := hmem
      refine iff_of_false (fun hall => hp ?_) fun h => hp h.1
      rw [← hcp, ← hcc]
      exact hall c hc

/-- The frame has no handler and is left. -/
def Leaves (a : Activation δ) (why : Reason) (value : Var) : Prop :=
  why ≠ .exit ∧ ∃ rt label, unwindFrame why value a.rtStack = .ok (.bare rt, label)

/-- Each verb that a built-in function called and an error or abort takes off the stack has the
programmer of the verb that called the built-in function, and so have the verbs that the built-in
function goes on to call. -/
def SameProgrammer (sv : Server δ σ) (fuel : ℕ) :
    List (Activation δ) → Reason → Var → σ → Prop
  | a::rest, why, value, w =>
    match rest with
    | [] => True
    | b::below => Leaves a why value →
      if a.biFuncPc ≠ 0 then
        if why = .return then
          match sv.callBiFunc a.biFuncId value a.biFuncPc b.progr a.biFuncData (b::below) w with
          | (.raise code msg v, w') => b.debug = true →
            ∀ why' value', raiseWith sv code msg v (b::below) = .ok (why', value') →
              SameProgrammer sv fuel (b::below) why' value' w'
          | (.kill, w') => SameProgrammer sv fuel (b::below) .abort zero w'
          | (.suspend e, w') => e ≠ .none → SameProgrammer sv fuel (b::below) .raise (.err e) w'
          | (.return _, _) | (.call _ _ _, _) => True
        else a.progr = b.progr ∧
          RunsAs sv a.biFuncId b.progr (b::below) fuel a.biFuncPc a.biFuncData w ∧
          ∀ calls w', shortCircuit sv a.biFuncId b.progr (b::below) fuel a.biFuncPc a.progr
            a.biFuncData w = .ok (calls, w') → SameProgrammer sv fuel (b::below) why value w'
      else why ≠ .return → SameProgrammer sv fuel (b::below) why value w
  | [], _, _, _ => True

theorem Unwound.after_authorized (calls : List BiCall) (r : Unwound δ σ) :
    (∀ c ∈ (r.after calls).calls, c.Authorized) ↔
      (∀ c ∈ calls, c.Authorized) ∧ ∀ c ∈ r.calls, c.Authorized := by
  simp only [Unwound.after, List.mem_append]
  constructor
  · intro h
    exact ⟨fun c hc => h c (.inl hc), fun c hc => h c (.inr hc)⟩
  · intro h c hc
    exact hc.elim (h.1 c) (h.2 c)

/-- Built-in functions are resumed with the authority of their caller exactly if no verb with
another programmer is taken off the stack above one. -/
theorem unwindStack_authorized_iff {sv : Server δ σ} {fuel : ℕ} {acts : List (Activation δ)}
    {why : Reason} {value : Var} {w : σ} {r : Unwound δ σ}
    (h : unwindStack sv fuel acts why value w = .ok r) :
    (∀ c ∈ r.calls, c.Authorized) ↔ SameProgrammer sv fuel acts why value w := by
  induction acts generalizing why value w r with
  | nil => cases h
  | cons a rest ih =>
    rw [unwindStack.eq_def] at h
    obtain ⟨⟨stop, label⟩, hstop, h⟩ := bind_ok.mp h
    cases stop with
    | handler pc rt =>
      rw [pure_ok] at h
      subst h
      have hleaves : ¬Leaves a why value := by
        rintro ⟨-, rt', label', hl⟩
        rw [hstop] at hl
        cases hl
      cases rest <;> simp [SameProgrammer, hleaves]
    | bare rt =>
      dsimp only at h
      by_cases hexit : why = .exit
      · rw [if_pos hexit, pure_ok] at h
        subst h
        cases rest <;> simp [SameProgrammer, Leaves, hexit]
      · rw [if_neg hexit] at h
        have hleaves : Leaves a why value := ⟨hexit, rt, label, hstop⟩
        cases rest with
        | nil =>
          rw [pure_ok] at h
          subst h
          simp [SameProgrammer]
        | cons b below =>
          rw [SameProgrammer]
          dsimp only at h ⊢
          simp only [hleaves, true_imp_iff]
          by_cases hbi : a.biFuncPc ≠ 0
          · rw [if_pos hbi] at h ⊢
            by_cases hret : why = .return
            · rw [if_pos hret] at h ⊢
              have hcall : ∀ r' : Unwound δ σ,
                  (∀ c ∈ (r'.after [⟨a.biFuncId, a.biFuncPc, b.progr, b.progr⟩]).calls,
                    c.Authorized) ↔ ∀ c ∈ r'.calls, c.Authorized := by
                intro r'
                rw [Unwound.after_authorized]
                simp [BiCall.Authorized]
              cases hbf : sv.callBiFunc a.biFuncId value a.biFuncPc b.progr a.biFuncData
                  (b::below) w with
              | mk p w' =>
                rw [hbf] at h
                cases p with
                | «return» ret =>
                  rw [pure_ok] at h
                  subst h
                  simp [BiCall.Authorized]
                | raise code msg v =>
                  dsimp only at h ⊢
                  by_cases hdebug : b.debug = true
                  · rw [if_pos hdebug] at h
                    obtain ⟨⟨why', value'⟩, hw, h⟩ := bind_ok.mp h
                    obtain ⟨r', hr', h⟩ := bind_ok.mp h
                    rw [pure_ok] at h
                    subst h
                    rw [hcall, ih hr']
                    simp [hdebug, hw]
                  · rw [if_neg hdebug, pure_ok] at h
                    subst h
                    simp [hdebug, BiCall.Authorized]
                | call pc data pushed =>
                  rw [pure_ok] at h
                  subst h
                  simp [BiCall.Authorized]
                | suspend e =>
                  dsimp only at h ⊢
                  by_cases he : e = .none
                  · rw [if_pos he, pure_ok] at h
                    subst h
                    simp [he, BiCall.Authorized]
                  · rw [if_neg he] at h
                    obtain ⟨r', hr', h⟩ := bind_ok.mp h
                    rw [pure_ok] at h
                    subst h
                    rw [hcall, ih hr']
                    simp [he]
                | kill =>
                  obtain ⟨r', hr', h⟩ := bind_ok.mp h
                  rw [pure_ok] at h
                  subst h
                  exact (hcall r').trans (ih hr')
            · rw [if_neg hret] at h ⊢
              obtain ⟨⟨calls, w'⟩, hs, h⟩ := bind_ok.mp h
              obtain ⟨r', hr', h⟩ := bind_ok.mp h
              rw [pure_ok] at h
              subst h
              rw [Unwound.after_authorized, shortCircuit_authorized hs, ih hr', hs, and_assoc]
              refine and_congr_right fun _ => and_congr_right fun _ => ?_
              constructor
              · intro hsame calls1 w1 h1
                rw [Except.ok.injEq, Prod.mk.injEq] at h1
                exact h1.2 ▸ hsame
              · intro hall
                exact hall calls w' rfl
          · rw [if_neg hbi] at h ⊢
            by_cases hret : why = .return
            · rw [if_pos hret, pure_ok] at h
              subst h
              simp [hret]
            · rw [if_neg hret] at h
              rw [ih h]
              simp [hret]

end

/-- `move` after the `accept` verb of the destination, where no `exitfunc` or `enterfunc` is
defined and `#2` is the one wizard; the world is the location of the object. -/
def moveServer : Server (Objid × Objid) Objid where
  callBiFunc _ arglist _ progr data _ location :=
    if progr ≠ 2 ∧ (arglist = zero) then (.raise (.err .nacc) [] zero, location)
    else (.return zero, data.2)
  nameFuncByNum _ := []
  findLineNumber _ _ := 1

def moveFrame (progr : Objid) (biFuncPc : ℕ) : Activation (Objid × Objid) where
  pc := 0
  errorPc := 0
  rtStack := []
  this := .obj progr
  verb := []
  vloc := progr
  progr := progr
  player := 5
  debug := true
  biFuncPc := biFuncPc
  biFuncId := 0
  biFuncData := (10, 20)

theorem unwindStack_authorized_return :
    (∀ c ∈ ([⟨0, 2, 5, 5⟩] : List BiCall), c.Authorized) ↔
      SameProgrammer moveServer 1 [moveFrame 2 2, moveFrame 5 0] .return (.int 1) 30 :=
  unwindStack_authorized_iff (r := ⟨none, [{ moveFrame 5 0 with rtStack := [zero] }], 20, _⟩)
    (by simp [unwindStack, unwindFrame, unwindRt, moveFrame, moveServer, bind, Except.bind, pure,
      Except.pure, zero])

/-- The `accept` verb of a wizard fails for an object of `#5`, and the object is moved. -/
theorem move_unauthorized : ∃ r,
    unwindStack moveServer 1 [moveFrame 2 2, moveFrame 5 0] .uncaught zero 30 = .ok r ∧
      r.world = 20 ∧ ¬∀ c ∈ r.calls, c.Authorized := by
  refine ⟨⟨some .aborted, [], 20, [⟨0, 2, 2, 5⟩]⟩, ?_, rfl, ?_⟩
  · simp [unwindStack, unwindFrame, unwindRt, moveFrame, moveServer, bind, Except.bind, pure,
      Except.pure, shortCircuit, Unwound.after]
  · simp [BiCall.Authorized]

end LambdaMoo.Execute
