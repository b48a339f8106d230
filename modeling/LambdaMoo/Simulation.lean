import LambdaMoo.Handlers
import LambdaMoo.Operands

/-!
# The machine and the evaluation

What it means that the instructions bring about what an evaluation says: a
value is on top of the operand stack as it was, or an error is raised with
nothing above that stack that could handle it. Such facts are put together as
evaluations are.
-/

set_option autoImplicit false

namespace LambdaMoo.Run
open LambdaMoo.Execute LambdaMoo.CodeGen

/-! ## Down a stack -/

/-- The loop of `unwind_stack` passes by these, if the goal is not above what is below them. -/
def Passes (why : Reason) (code : Var) (ws : List Var) : Prop :=
  ∀ st goal value, goal ≤ st.length →
    unwindRt why code value goal (ws++st) = unwindRt why code value goal st

/-- An error passes by, whether there is a handler for it below or not. -/
structure Passive (code : Var) (ws : List Var) : Prop where
  find : ∀ st, findHandlerRt code (ws++st) = findHandlerRt code st
  raise : Passes .raise code ws
  uncaught : Passes .uncaught zero ws

section Passes
variable {why : Reason} {code value v : Var} {goal : ℕ} {ws ws' st : List Var}

theorem unwindRt_unmarked (hv : unmarked v) (hg : goal ≤ st.length) :
    unwindRt why code value goal (v::st) = unwindRt why code value goal st := by
  cases v with
  | «catch» _ | «finally» _ => exact hv.elim
  | _ =>
    rw [unwindRt, if_neg (by omega)]
    all_goals simp

theorem Passes.nil : Passes why code [] := fun _ _ _ _ => rfl

theorem Passes.append (h : Passes why code ws) (h' : Passes why code ws') :
    Passes why code (ws++ws') := by
  intro st goal value hg
  rw [List.append_assoc]
  refine (h _ goal value ?_).trans (h' st goal value hg)
  rw [List.length_append]
  omega

theorem Passes.values (h : ∀ w ∈ ws, unmarked w) : Passes why code ws := by
  induction ws with
  | nil => exact .nil
  | cons w ws ih =>
    intro st goal value hg
    have hlen : goal ≤ (ws++st).length := by
      rw [List.length_append]
      omega
    rw [List.cons_append, unwindRt_unmarked (h w (by simp)) hlen]
    exact ih (fun u hu => h u (by simp [hu])) st goal value hg

theorem Passive.nil : Passive code [] := ⟨fun _ => rfl, .nil, .nil⟩

theorem Passive.append (h : Passive code ws) (h' : Passive code ws') : Passive code (ws++ws') := by
  refine ⟨fun st => ?_, h.raise.append h'.raise, h.uncaught.append h'.uncaught⟩
  rw [List.append_assoc]
  exact (h.find _).trans (h'.find st)

theorem Passive.values (h : ∀ w ∈ ws, unmarked w) : Passive code ws := by
  refine ⟨fun st => ?_, .values h, .values h⟩
  induction ws with
  | nil => rfl
  | cons w ws ih =>
    rw [List.cons_append, findHandlerRt_value (unmarked_type (h w (by simp))).1]
    exact ih fun u hu => h u (by simp [hu])

/-! ### Handlers -/

variable {arms : List (Var×Num)}

theorem unmarked_arms (h : ∀ arm ∈ arms, unmarked arm.1) :
    ∀ w ∈ (armVars arms).reverse, unmarked w := by
  intro w hw
  obtain ⟨arm, harm, hw⟩ := List.mem_flatMap.mp (List.mem_reverse.mp hw)
  rcases List.mem_pair.mp hw with rfl | rfl
  · exact h arm harm
  · trivial

/-- A return, a loop exit or an error without a handler passes by handlers. -/
theorem passes_arms (hw : why ≠ .raise) (h : ∀ arm ∈ arms, unmarked arm.1) :
    Passes why code (Group.catch arms).vars := by
  intro st goal value hg
  have hlen : goal ≤ ((armVars arms).reverse++st).length := by
    rw [List.length_append]
    omega
  rw [Group.vars, List.cons_append, unwindRt, if_neg (by omega), if_neg hw]
  exact Passes.values (unmarked_arms h) st goal value hg

theorem passive_arms (arms : List (Var×Num)) (hl : arms.length < 2^64) (h : ∀ arm ∈ arms, unmarked arm.1)
    (hf : arms.find? (fun arm => handles code arm.1) = none) :
    Passive code (Group.catch arms).vars := by
  refine ⟨fun st => ?_, fun st goal value hg => ?_, passes_arms (by simp) h⟩
  · obtain ⟨hle, htake, hdrop⟩ := arms_split arms st hl
    rw [Group.vars, List.cons_append, findHandlerRt, if_pos hle, htake, hdrop, hasArm_armVars, hf]
    rfl
  · obtain ⟨hle, htake, hdrop⟩ := arms_split arms st hl
    have hlen : ¬((armVars arms).reverse++st).length < goal := by
      rw [List.length_append]
      omega
    rw [Group.vars, List.cons_append, unwindRt, if_neg hlen, if_pos rfl, if_pos hle, htake, hdrop,
      findArm_armVars, hf]
    rfl

theorem find_arms {arm : Var×Num} (hl : arms.length < 2^64)
    (hf : arms.find? (fun arm => handles code arm.1) = some arm) :
    findHandlerRt code ((Group.catch arms).vars++st) = .ok true := by
  obtain ⟨hle, htake, hdrop⟩ := arms_split arms st hl
  rw [Group.vars, List.cons_append, findHandlerRt, if_pos hle, htake, hasArm_armVars, hf]
  rfl

theorem unwind_arms {arm : Var×Num} (hl : arms.length < 2^64)
    (hf : arms.find? (fun arm => handles code arm.1) = some arm) :
    unwindRt .raise code value 0 ((Group.catch arms).vars++st) =
      .ok (.handler arm.2.toNat (value::st)) := by
  obtain ⟨hle, htake, hdrop⟩ := arms_split arms st hl
  rw [Group.vars, List.cons_append, unwindRt, if_neg (Nat.not_lt_zero _), if_pos rfl, if_pos hle,
    htake, hdrop, findArm_armVars, hf]
  rfl

end Passes

/-! ## Settings -/

/-- What the machine runs with: a vector, its tables, and the rest of the server. -/
structure Setting (σ : Type) where
  host : Host σ
  T : Tables
  v : Vec
  sound : host.Sound
  literals : ∀ x ∈ T.literals, unmarked x
  short : v.bc.vector.length < 2^64

/-- The frame of the machine, with something in the temporary register. -/
def Frame.regs {σ : Type} (f : Frame σ) (t : Var) : Frame (Regs σ) := ⟨f.env, ⟨t, f.world⟩⟩

theorem assign_regs {σ : Type} (sc : Scatter) (ps : List (List Var)) (f : Frame σ) (t : Var) :
    assign sc ps (f.regs t) = (assign sc ps f).regs t := by
  fun_induction Run.assign sc ps f with
  | case1 id e next piece ps f ih =>
    rw [assign, ← ih]
    rfl
  | case2 kind id e next x ps f hk ih =>
    rw [assign, ← ih]
    · rfl
    · exact hk
  | case3 kind id e next piece ps f hk hx ih =>
    rw [assign, ih]
    · exact hk
    · exact hx
  | case4 sc ps f h1 h2 h3 =>
    rw [assign]
    · exact h1
    · exact h2
    · exact h3

section Landing
variable {σ : Type} (s : Setting σ)

namespace Setting

/-- The value is on top of the stack. -/
def Top (t : Var) (a : ℕ) (st : List Var) (w : Var) (f : Frame σ) (y : Activ (Regs σ)) : Prop :=
  unmarked w ∧ f.Clean ∧ y = ⟨a, w::st, f.regs t⟩

/-- The value is on top of the stack, or an `OP_POP` has been taken along. -/
def Landed (t : Var) (a : ℕ) (st : List Var) (w : Var) (f : Frame σ) (y : Activ (Regs σ)) : Prop :=
  unmarked w ∧ f.Clean ∧ (y = ⟨a, w::st, f.regs t⟩ ∨
    s.v.bc.vector[a]? = some (Opcode.toByte .pop) ∧ y = ⟨a+1, st, f.regs t⟩)

def At (a : ℕ) (st : List Var) (w : Var) (f : Frame σ) (y : Activ (Regs σ)) : Prop :=
  ∃ t, s.Landed t a st w f y

/-- Nothing more than before is on the stack. -/
def Quiet (a : ℕ) (st : List Var) (f : Frame σ) (y : Activ (Regs σ)) : Prop :=
  f.Clean ∧ ∃ t, y = ⟨a, st, f.regs t⟩

/-- There is no `OP_POP` at the position. -/
def Starts (a : ℕ) : Prop := s.v.bc.vector[a]? ≠ some (Opcode.toByte .pop)

variable {s} {y : Activ (Regs σ)} {st : List Var} {a : ℕ} {f : Frame σ} {t w : Var}

theorem Top.landed (h : Top t a st w f y) : s.Landed t a st w f y := ⟨h.1, h.2.1, .inl h.2.2⟩

theorem Landed.at (h : s.Landed t a st w f y) : s.At a st w f y := ⟨t, h⟩

theorem At.top (h : s.At a st w f y) (hs : s.Starts a) : ∃ t, Top t a st w f y := by
  obtain ⟨t, hw, hf, rfl | ⟨hpop, -⟩⟩ := h
  · exact ⟨t, hw, hf, rfl⟩
  · exact absurd hpop hs

end Setting

theorem starts_of_instr {s : Setting σ} {d a a' : ℕ} {i : Instr} (hi : s.v.instr d i a a')
    (h : i ≠ .pop) : s.Starts a := by
  intro hpop
  have := (fetch_pop hpop).symm.trans hi.1
  simp only [Option.some.injEq, Prod.mk.injEq] at this
  exact h this.1.symm

end Landing

section Simulation
variable {σ α β : Type} [FloatOps] (s : Setting σ)

namespace Setting

abbrev Adv : Activ (Regs σ) → Activ (Regs σ) → Prop := Advances s.host s.T s.v.bc

/-- The next instruction raises an error, or an error goes on behind a `finally`. -/
inductive Thrown (host : Host σ) (code : Var) (args : List Var) (z : Activ (Regs σ)) :
    Move σ → Prop
  | raise (h : args = host.report code z.frame.world.world) : Thrown host code args z (.raise code z)
  | again : Thrown host code args z (.unwind .raise (.list (code::args)) z)
  | uncaught (h : findHandlerRt code z.stack = .ok false) :
      Thrown host code args z (.unwind .uncaught zero z)

/-- The error is raised, and what is above the stack does not handle it. -/
structure Raises (x : Activ (Regs σ)) (st : List Var) (code : Var) (args : List Var)
    (f : Frame σ) : Prop where
  given : ∀ w ∈ code::args, unmarked w
  clean : f.Clean
  raised : ∃ y z m ws t, s.Adv x y ∧ move s.host s.T s.v.bc y = .ok m ∧
    Thrown s.host code args z m ∧ z.stack = ws++st ∧ z.frame = f.regs t ∧ Passive code ws

/-- The machine brings about the result, where there is one. -/
def Ends (x : Activ (Regs σ)) (st : List Var) (K : α → Frame σ → Activ (Regs σ) → Prop) :
    Result (Answer σ α) → Prop
  | .ok (.value w f) => ∃ y, s.Adv x y ∧ K w f y
  | .ok (.raise code args f) => s.Raises x st code args f
  | .error _ => True

end Setting

variable {s} {x y : Activ (Regs σ)} {st ws : List Var} {a a' d : ℕ} {i : Instr} {f : Frame σ}
  {t w : Var}

namespace Setting

variable {code : Var} {args : List Var}

theorem Raises.before (h : s.Adv x y) (hr : s.Raises y st code args f) :
    s.Raises x st code args f := by
  obtain ⟨hc, hf, y', z, m, ws, t, hy, hm⟩ := hr
  exact ⟨hc, hf, y', z, m, ws, t, h.trans hy, hm⟩

theorem Raises.below (hr : s.Raises x (ws++st) code args f) (hws : Passive code ws) :
    s.Raises x st code args f := by
  obtain ⟨hc, hf, y, z, m, ws', t, hy, hm, ht, hz, hframe, hp⟩ := hr
  exact ⟨hc, hf, y, z, m, ws'++ws, t, hy, hm, ht, by rw [hz, List.append_assoc], hframe,
    hp.append hws⟩

variable {K K' : α → Frame σ → Activ (Regs σ) → Prop} {L : β → Frame σ → Activ (Regs σ) → Prop}
  {r : Result (Answer σ α)}

theorem Ends.before (h : s.Adv x y) (hr : s.Ends y st K r) : s.Ends x st K r := by
  cases r with
  | error e => trivial
  | ok p =>
    cases p with
    | value w f =>
      obtain ⟨z, hz, hk⟩ := hr
      exact ⟨z, h.trans hz, hk⟩
    | raise code args f => exact Raises.before h hr

theorem Ends.onward (hr : s.Ends x st K r) (h : ∀ w f y, K w f y → ∃ z, s.Adv y z ∧ K' w f z) :
    s.Ends x st K' r := by
  cases r with
  | error e => trivial
  | ok p =>
    cases p with
    | value w f =>
      obtain ⟨y, hy, hk⟩ := hr
      obtain ⟨z, hz, hk⟩ := h _ _ _ hk
      exact ⟨z, hy.trans hz, hk⟩
    | raise code args f => exact hr

theorem Ends.mono (hr : s.Ends x st K r) (h : ∀ w f y, K w f y → K' w f y) :
    s.Ends x st K' r :=
  hr.onward fun w f y hk => ⟨y, .refl, h w f y hk⟩

/-- Operands that lie on the stack do not handle errors. -/
theorem Ends.below (hr : s.Ends x (ws++st) K r) (hws : ∀ w ∈ ws, unmarked w) :
    s.Ends x st K r := by
  cases r with
  | error e => trivial
  | ok p =>
    cases p with
    | value w f => exact hr
    | raise code args f => exact Raises.below hr (.values hws)

theorem Ends.operand (hr : s.Ends x (w::st) K r) (hw : unmarked w) : s.Ends x st K r := by
  have hr' : s.Ends x ([w]++st) K r := hr
  exact hr'.below (by simpa using hw)

theorem Ends.bind {m : Eval σ α} {k : α → Eval σ β} (hm : s.Ends x st K (m f))
    (hk : ∀ w g y, K w g y → s.Ends y st L (k w g)) : s.Ends x st L ((m >>= k) f) := by
  change s.Ends x st L (m f >>= _)
  cases hr : m f with
  | error e => trivial
  | ok p =>
    rw [hr] at hm
    cases p with
    | value w g =>
      obtain ⟨y, hy, hK⟩ := hm
      exact (hk w g y hK).before hy
    | raise code args g => exact hm

theorem Ends.pure {w : α} (h : K w f x) : s.Ends x st K ((Pure.pure w : Eval σ α) f) :=
  ⟨x, .refl, h⟩

theorem Ends.handle {m : Eval σ α} {h : Var → List Var → Eval σ α} {st' : List Var}
    (hm : s.Ends x st' K (m f))
    (hv : ∀ w g y, K w g y → ∃ z, s.Adv y z ∧ K' w g z)
    (hr : ∀ code args g, s.Raises x st' code args g → s.Ends x st K' (h code args g)) :
    s.Ends x st K' (m.handle h f) := by
  rw [Eval.handle]
  cases hres : m f with
  | error e => trivial
  | ok p =>
    rw [hres] at hm
    cases p with
    | value w g =>
      obtain ⟨y, hy, hk⟩ := hm
      obtain ⟨z, hz, hk⟩ := hv w g y hk
      exact ⟨z, hy.trans hz, hk⟩
    | raise code args g => exact hr code args g hm

end Setting

/-- The handler for a thrown error goes on with what it is told on the stack. -/
theorem advance_caught {z : Activ (Regs σ)} {m : Move σ} {code : Var} {args : List Var}
    (arms : List (Var×Num)) {arm : Var×Num} (hm : move s.host s.T s.v.bc y = .ok m)
    (ht : Setting.Thrown s.host code args z m) (hz : z.stack = ws++((Group.catch arms).vars++st))
    (hp : Passive code ws) (hl : arms.length < 2^64)
    (hf : arms.find? (fun arm => handles code arm.1) = some arm) :
    advance s.host s.T s.v.bc y = .ok (.next ⟨arm.2.toNat, .list (code::args)::st, z.frame⟩) := by
  have hfind : findHandlerRt code z.stack = .ok true := by
    rw [hz, hp.find]
    exact find_arms hl hf
  have hunwind : unwind .raise (.list (code::args)) z =
      .ok (.next ⟨arm.2.toNat, .list (code::args)::st, z.frame⟩) := by
    rw [unwind, unwindFrame, hz, hp.raise _ _ _ (Nat.zero_le _), unwind_arms hl hf]
    rfl
  rw [advance, hm]
  cases ht with
  | raise h =>
    change raised s.host code z = _
    rw [raised, hfind, ← h]
    exact hunwind
  | again => exact hunwind
  | uncaught h =>
    rw [hfind] at h
    cases h

/-! ## Single instructions -/

theorem adv_one {b : Activ (Regs σ)} {g : Frame (Regs σ)} (hi : s.v.instr d i a a')
    (he : execInstr s.host s.T s.v.bc i ⟨a', st, g⟩ = .ok (.next b)) :
    s.Adv ⟨a, st, g⟩ b := by
  refine .single ?_
  rw [advance, move, hi.1]
  change (execInstr s.host s.T s.v.bc i ⟨a', st, g⟩ >>= _) = _
  rw [he]
  rfl

/-- The instructions that were given before. -/
theorem adv_steps {x y : Activ (Regs σ)}
    (h : Steps (fun _ _ => .error (.undefined "opcode")) s.v.bc x y) : s.Adv x y := by
  induction h with
  | refl => exact .refl
  | @tail y z _ hyz ih =>
    refine ih.tail ?_
    rw [step] at hyz
    rw [advance, move]
    cases hfetch : s.v.bc.fetch y.pc with
    | none =>
      rw [hfetch] at hyz
      cases hyz
    | some p =>
      obtain ⟨i, pc⟩ := p
      rw [hfetch] at hyz
      have hexec : execInstr s.host s.T s.v.bc i { y with pc := pc } =
          moveOf (exec (fun _ _ => .error (.undefined "opcode")) s.v.bc i { y with pc := pc }) := by
        cases i with
        | jump | num | pop | put | forList | forRange | scatter => rfl
        | _ => cases hyz
      change (execInstr s.host s.T s.v.bc i { y with pc := pc } >>= _) = _
      rw [hexec]
      change exec _ s.v.bc i { y with pc := pc } = _ at hyz
      rw [hyz]
      rfl

omit [FloatOps] in
theorem unmarked_raised {code : Var} {world : σ} (h : unmarked code) :
    ∀ v ∈ code::s.host.report code world, unmarked v := by
  intro v hv
  rcases List.mem_cons.mp hv with rfl | hv
  · exact h
  · exact s.sound.report _ _ v hv

/-- An instruction that takes its operands and calls something, or does it itself. -/
theorem ends_call {st' : List Var} {k : Call σ} (hi : s.v.instr d i a a')
    (he : execInstr s.host s.T s.v.bc i ⟨a', st', f.regs t⟩ =
      call ⟨a', st', f.regs t⟩ st k)
    (hk : Answers k) (hf : f.Clean) :
    s.Ends ⟨a, st', f.regs t⟩ st (Setting.Top t a' st) (Eval.call s.host k f) := by
  have hmove : move s.host s.T s.v.bc ⟨a, st', f.regs t⟩ =
      call ⟨a', st', f.regs t⟩ st k := by
    rw [move, hi.1]
    exact he
  rw [Eval.call]
  rw [call] at hmove he
  change _ = (k f.world >>= _) at hmove
  change _ = (k f.world >>= _) at he
  cases hr : k f.world with
  | error e => trivial
  | ok p =>
    obtain ⟨r, w⟩ := p
    obtain ⟨hok, herr⟩ := hk _ _ _ hr
    rw [hr] at hmove he
    cases r with
    | ok v => exact ⟨_, adv_one hi he, hok v rfl, hf, rfl⟩
    | error code =>
      refine ⟨?_, hf, _, _, _, [], t, .refl, hmove, .raise rfl, rfl, rfl, .nil⟩
      exact unmarked_raised (herr code rfl)

end Simulation

end LambdaMoo.Run
