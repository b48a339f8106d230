import LambdaMoo.Behaviour
import LambdaMoo.Meaning
import LambdaMoo.Vectors

/-!
# Ways out of a statement

A return and a loop exit go down the operand stack like an error, past
handlers and down to a `finally`. What the machine does about the ways out of
a body is what loops and `finally` statements do about them.
-/

set_option autoImplicit false

namespace LambdaMoo

/-! ## Operands that count bytes or levels -/

theorem readBytes_lt {vector : List Byte} {pos n x : ℕ} (h : readBytes vector pos n = some x) :
    x < 256^n := by
  induction n generalizing x with
  | zero =>
    cases h
    decide
  | succ n ih =>
    obtain ⟨hi, hhi, h⟩ := Option.bind_eq_some_iff.mp h
    obtain ⟨b, -, h⟩ := Option.bind_eq_some_iff.mp h
    obtain rfl := Option.some.inj h
    have := ih hhi
    have := b.toNat_lt
    rw [Nat.pow_succ]
    omega

namespace Bytecodes
variable (bc : Bytecodes)

/-- The operands of an instruction are as wide as the vector says. -/
def Narrow : Instr → Prop
  | .exit _ k label => k < 256^bc.numbytesStack ∧ label < 256^bc.numbytesLabel
  | .tryFinally label => label < 256^bc.numbytesLabel
  | .tryExcept n => n < 256
  | _ => True

def Narrowed (o : Option (Instr×ℕ)) : Prop := ∀ r, o = some r → bc.Narrow r.1

variable {bc} {pos : ℕ}

theorem Narrowed.pure {i : Instr} (h : bc.Narrow i) : bc.Narrowed (some (i, pos)) := by
  intro r hr
  cases hr
  exact h

theorem Narrowed.bind {α : Type} {o : Option α} {g : α → Option (Instr×ℕ)}
    (h : ∀ x, o = some x → bc.Narrowed (g x)) : bc.Narrowed (o >>= g) := by
  intro r hr
  obtain ⟨x, hx, hr⟩ := Option.bind_eq_some_iff.mp hr
  exact h x hx r hr

theorem readLabel_lt {r : ℕ×ℕ} (h : bc.readLabel pos = some r) : r.1 < 256^bc.numbytesLabel := by
  obtain ⟨x, hx, rfl⟩ := Option.map_eq_some_iff.mp h
  exact readBytes_lt hx

theorem readStack_lt {r : ℕ×ℕ} (h : bc.readStack pos = some r) : r.1 < 256^bc.numbytesStack := by
  obtain ⟨x, hx, rfl⟩ := Option.map_eq_some_iff.mp h
  exact readBytes_lt hx

theorem Narrowed.withLabel {instr : ℕ → Instr}
    (h : ∀ label, label < 256^bc.numbytesLabel → bc.Narrow (instr label)) :
    bc.Narrowed (bc.withLabel pos instr) :=
  .bind fun _ hr => .pure (h _ (readLabel_lt hr))

theorem Narrowed.withIdLabel {instr : ℕ → ℕ → Instr} (h : ∀ id label, bc.Narrow (instr id label)) :
    bc.Narrowed (bc.withIdLabel pos instr) :=
  .bind fun _ _ => .bind fun _ _ => .pure (h _ _)

theorem decodeExtended_narrow (eop : ExtendedOpcode) : bc.Narrowed (bc.decodeExtended eop pos) := by
  cases eop with
  | exit => exact .bind fun r hr => .withLabel fun label hl => ⟨readStack_lt hr, hl⟩
  | exitId =>
    exact .bind fun _ _ => .bind fun r hr => .withLabel fun label hl => ⟨readStack_lt hr, hl⟩
  | tryFinally => exact .withLabel fun label hl => hl
  | tryExcept =>
    refine .bind fun r hr => .pure ?_
    obtain ⟨b, -, rfl⟩ := Option.map_eq_some_iff.mp hr
    exact b.toNat_lt
  | pushLabel | endCatch | endExcept => exact .withLabel fun _ _ => trivial
  | whileId => exact .withIdLabel fun _ _ => trivial
  | length => exact .bind fun _ _ => .pure trivial
  | scatter =>
    exact .bind fun _ _ => .bind fun _ _ => .bind fun _ _ => .bind fun _ _ =>
      .withLabel fun _ _ => trivial
  | _ => exact .pure trivial

theorem decode_narrow (op : Opcode) : bc.Narrowed (bc.decode op pos) := by
  cases op with
  | «if» | «while» | eif | ifQues | and | or | jump => exact .withLabel fun _ _ => trivial
  | fork => exact .bind fun _ _ => .pure trivial
  | forkWithId => exact .bind fun _ _ => .bind fun _ _ => .pure trivial
  | forList | forRange => exact .withIdLabel fun _ _ => trivial
  | biFuncCall => exact .bind fun _ _ => .pure trivial
  | gPut | gPush => exact .bind fun _ _ => .pure trivial
  | imm => exact .bind fun _ _ => .pure trivial
  | extended => exact .bind fun _ _ => .bind fun _ _ => decodeExtended_narrow _
  | _ => exact .pure trivial

theorem fetch_narrow {i : Instr} {pos' : ℕ} (h : bc.fetch pos = some (i, pos')) : bc.Narrow i := by
  obtain ⟨b, -, h⟩ := Option.bind_eq_some_iff.mp h
  exact decode_narrow _ _ h

end Bytecodes

namespace Run
open LambdaMoo.Execute LambdaMoo.CodeGen

/-! ## Stacks with handlers -/

/-- The handlers on the stack are complete. -/
def Orderly (st : List Var) : Prop := ∀ code, ∃ b, findHandlerRt code st = .ok b

section Orderly
variable {st ws : List Var} {arms : List (Var×Num)}

theorem orderly_nil : Orderly [] := fun _ => ⟨false, by simp [findHandlerRt]⟩

theorem Orderly.values (h : Orderly st) (hw : ∀ w ∈ ws, unmarked w) : Orderly (ws++st) := by
  intro code
  rw [(Passive.values hw).find]
  exact h code

theorem Orderly.finally (h : Orderly st) (pc : Num) : Orderly (.finally pc::st) := by
  intro code
  rw [findHandlerRt_value (by simp [Var.type])]
  exact h code

theorem Orderly.handlers (h : Orderly st) (hl : arms.length < 2^64)
    (ha : ∀ arm ∈ arms, unmarked arm.1) : Orderly ((Group.catch arms).vars++st) := by
  intro code
  cases hf : arms.find? (fun arm => handles code arm.1) with
  | none =>
    rw [(passive_arms _ hl ha hf).find]
    exact h code
  | some arm => exact ⟨true, find_arms hl hf⟩

theorem unwindRt_finally {why : Reason} {code value : Var} {goal : ℕ} {pc : Num} (hw : why ≠ .abort)
    (hg : goal ≤ st.length) : unwindRt why code value goal (.finally pc::st) =
      .ok (.handler pc.toNat (value::.int why.toNum::st)) := by
  rw [unwindRt, if_neg (by omega), if_pos hw]

/-- The stack is cut back to the goal. -/
theorem unwindRt_goal {why : Reason} {code value : Var} :
    unwindRt why code value st.length st = .ok (.bare st) := by
  cases st with
  | nil => simp [unwindRt]
  | cons v st =>
    unfold unwindRt
    simp

end Orderly

/-! ## Programs -/

/-- The machine with a task queue that tells vectors apart by what they were made from. -/
structure Program (σ : Type) extends Setting σ where
  forkTree : ForkTree σ
  forks : ∀ f vector body, T.forkVectors[f]? = some vector → Compiled T body vector →
    host.fork f = forkTree body
  labels : v.bc.numbytesLabel ≤ 8
  depths : v.bc.numbytesStack ≤ 8

theorem narrow_lt {n x : ℕ} (h : x < 256^n) (hn : n ≤ 8) : x < 2^64 := by
  have := Nat.pow_le_pow_right (n := 256) (by decide) hn
  have : (256 : ℕ)^8 = 2^64 := by decide
  omega

section Ways
variable {σ : Type} [FloatOps] {s : Setting σ}

namespace Setting
variable (s)

/-- The next instruction cuts the stack back. -/
structure Unwinds (why : Reason) (value : Var) (st : List Var) (f : Frame σ)
    (y : Activ (Regs σ)) : Prop where
  clean : f.Clean
  unwinds : ∃ z ws t, move s.host s.T s.v.bc y = .ok (.unwind why value z) ∧
    z.stack = ws++st ∧ z.frame = f.regs t ∧ Passes why zero ws

/-- A loop exit is on its way to the depth and the label. -/
def Exits (k label : ℕ) (st : List Var) (f : Frame σ) (y : Activ (Regs σ)) : Prop :=
  k < 2^64 ∧ label < 2^64 ∧ s.Unwinds .exit (exitValue k label) st f y

/-- Where the machine is when a statement has ended. -/
def Ways (loops : List LoopAt) (a : ℕ) (st : List Var) : Way → Frame σ → Activ (Regs σ) → Prop
  | .fall, f, y => Quiet a st f y
  | .return v, f, y => unmarked v ∧ s.Unwinds .return v st f y
  | .break exit, f, y =>
    ∃ l, findLoopAt exit loops = some l ∧ s.Exits l.bottomStack l.bottom st f y
  | .continue exit, f, y =>
    ∃ l, findLoopAt exit loops = some l ∧ s.Exits l.topStack l.top st f y

end Setting

variable {why : Reason} {value w : Var} {st ws us : List Var} {f : Frame σ} {t : Var}
  {x y : Activ (Regs σ)} {k label a a' b c d : ℕ} {loops : List LoopAt} {l : LoopAt}

theorem Setting.Unwinds.below (h : s.Unwinds why value (ws++st) f y) (hw : Passes why zero ws) :
    s.Unwinds why value st f y := by
  obtain ⟨hf, z, ws', t, hm, hz, hframe, hp⟩ := h
  exact ⟨hf, z, ws'++ws, t, hm, by rw [hz, List.append_assoc], hframe, hp.append hw⟩

theorem Setting.Exits.below (h : s.Exits k label (ws++st) f y) (hw : Passes .exit zero ws) :
    s.Exits k label st f y := ⟨h.1, h.2.1, h.2.2.below hw⟩

/-- A way out other than falling through leaves what is on the stack. -/
theorem ways_below {way : Way} (h : s.Ways loops b (ws++st) way f y) (hw : way ≠ .fall)
    (hr : Passes .return zero ws) (he : Passes .exit zero ws) : s.Ways loops a st way f y := by
  cases way with
  | fall => exact absurd rfl hw
  | «return» v => exact ⟨h.1, h.2.below hr⟩
  | «break» exit =>
    obtain ⟨l, hl, h⟩ := h
    exact ⟨l, hl, h.below he⟩
  | «continue» exit =>
    obtain ⟨l, hl, h⟩ := h
    exact ⟨l, hl, h.below he⟩

theorem ways_out {way : Way} (h : s.Ways loops b st way f y) (hw : way ≠ .fall) :
    s.Ways loops a st way f y := by
  have h' : s.Ways loops b ([]++st) way f y := h
  exact ways_below h' hw .nil .nil

/-- A jump behind the statement. -/
theorem ways_jump {way : Way} (hjump : s.v.instr d (.jump a') a b)
    (h : s.Ways loops a st way f y) : ∃ z, s.Adv y z ∧ s.Ways loops a' st way f z := by
  have hout : way ≠ .fall → ∃ z, s.Adv y z ∧ s.Ways loops a' st way f z :=
    fun hw => ⟨y, .refl, ways_out h hw⟩
  cases way with
  | fall =>
    obtain ⟨hf, t', rfl⟩ := h
    exact ⟨_, adv_one hjump rfl, hf, t', rfl⟩
  | «return» v => exact hout (by simp)
  | «break» exit => exact hout (by simp)
  | «continue» exit => exact hout (by simp)

theorem advance_unwind {z : Activ (Regs σ)} (hm : move s.host s.T s.v.bc y = .ok (.unwind why value z)) :
    advance s.host s.T s.v.bc y = unwind why value z := by
  rw [advance, hm]
  rfl

/-- The exit of a loop whose depth is reached. -/
theorem exits_adv (h : s.Exits k label st f y) (hk : k = st.length) :
    ∃ t, f.Clean ∧ s.Adv y ⟨label, st, f.regs t⟩ := by
  obtain ⟨hk', hlabel, hf, z, ws, t, hm, hz, hframe, hp⟩ := h
  refine ⟨t, hf, .single ?_⟩
  have hgoal : (BitVec.ofNat 64 k).toNat = st.length := by
    rw [BitVec.toNat_ofNat, Nat.mod_eq_of_lt hk', hk]
  have hto : (BitVec.ofNat 64 label).toNat = label := by
    rw [BitVec.toNat_ofNat, Nat.mod_eq_of_lt hlabel]
  rw [advance_unwind hm, unwind, exitValue, unwindFrame, hgoal, hto, hz, hp _ _ _ (Nat.le_refl _),
    unwindRt_goal, hframe]
  rfl

/-- A return goes down to the base of a stack without a `finally`. -/
theorem advance_return (h : s.Unwinds .return value [] f y) : ∃ z t,
    advance s.host s.T s.v.bc y = .ok (.leave .return value z) ∧ z.frame = f.regs t := by
  obtain ⟨hf, z, ws, t, hm, hz, hframe, hp⟩ := h
  refine ⟨⟨z.pc, [], z.frame⟩, t, ?_, hframe⟩
  rw [advance_unwind hm, unwind, unwindFrame, hz, hp _ _ _ (Nat.zero_le _), unwindRt]
  · rfl
  all_goals simp

/-- So does an error that nothing handles. -/
theorem advance_thrown {z : Activ (Regs σ)} {m : Move σ} {code : Var} {args : List Var}
    (hm : move s.host s.T s.v.bc y = .ok m) (ht : Setting.Thrown s.host code args z m)
    (hz : z.stack = ws++[]) (hp : Passive code ws) : ∃ z', z'.frame = z.frame ∧
      (advance s.host s.T s.v.bc y = .ok (.leave .raise (.list (code::args)) z') ∨
        advance s.host s.T s.v.bc y = .ok (.leave .uncaught zero z')) := by
  have hfind : findHandlerRt code z.stack = .ok false := by
    rw [hz, hp.find]
    simp [findHandlerRt]
  have hraise : unwind .raise (.list (code::args)) z =
      .ok (.leave .raise (.list (code::args)) ⟨z.pc, [], z.frame⟩) := by
    rw [unwind, unwindFrame, hz, hp.raise _ _ _ (Nat.zero_le _), unwindRt]
    rfl
  have huncaught : unwind .uncaught zero z = .ok (.leave .uncaught zero ⟨z.pc, [], z.frame⟩) := by
    rw [unwind, unwindFrame, hz, hp.uncaught _ _ _ (Nat.zero_le _), unwindRt]
    · rfl
    all_goals simp
  refine ⟨⟨z.pc, [], z.frame⟩, rfl, ?_⟩
  rw [advance, hm]
  cases ht with
  | raise h =>
    change raised s.host code z = _ ∨ raised s.host code z = _
    rw [raised, hfind, ← h]
    by_cases hc : s.host.catches code z.frame.world.world = true
    · left
      rw [hc]
      exact hraise
    · right
      rw [Bool.eq_false_of_not_eq_true hc]
      exact huncaught
  | again => exact .inl hraise
  | uncaught h => exact .inr huncaught

/-! ## Loops -/

omit [FloatOps] in
theorem findLoopAt_here {exit : Option ℕ} (h : exit = none ∨ exit = l.id) :
    findLoopAt exit (l::loops) = some l := by
  rcases h with rfl | rfl
  · rfl
  · cases hid : l.id with
    | none => rfl
    | some id => simp [findLoopAt, hid]

omit [FloatOps] in
theorem findLoopAt_there {exit : Option ℕ} (h : ¬(exit = none ∨ exit = l.id)) :
    findLoopAt exit (l::loops) = findLoopAt exit loops := by
  cases exit with
  | none => exact absurd (.inl rfl) h
  | some id =>
    have hne : ¬l.id = some id := fun he => h (.inr he.symm)
    simp [findLoopAt, hne]

/-- A round of a loop: its body has run above what the loop keeps on the stack. -/
theorem ends_loop (us : List Var) {body again : Eval σ Way} (hus : ∀ u ∈ us, unmarked u)
    (hbottom : l.bottomStack = st.length) (htop : l.topStack = (us++st).length)
    (hjump : s.v.instr d (.jump l.top) a b)
    (hbody : s.Ends x (us++st) (s.Ways (l::loops) a (us++st)) (body f))
    (hagain : ∀ g t, g.Clean →
      s.Ends ⟨l.top, us++st, g.regs t⟩ st (s.Ways loops l.bottom st) (again g)) :
    s.Ends x st (s.Ways loops l.bottom st) ((body >>= loopOn l.id again) f) := by
  refine (hbody.below hus).bind fun way g y hy => ?_
  cases way with
  | fall =>
    obtain ⟨hg, t', rfl⟩ := hy
    exact (hagain g t' hg).before (adv_one hjump rfl)
  | «return» v => exact .pure ⟨hy.1, hy.2.below (.values hus)⟩
  | «break» exit =>
    obtain ⟨l', hl, hy⟩ := hy
    rw [loopOn]
    by_cases hhere : exit = none ∨ exit = l.id
    · rw [if_pos hhere]
      rw [findLoopAt_here hhere] at hl
      obtain rfl := Option.some.inj hl
      obtain ⟨t', hg, hadv⟩ := exits_adv (hy.below (.values hus)) hbottom
      exact ⟨_, hadv, hg, t', rfl⟩
    · rw [if_neg hhere]
      rw [findLoopAt_there hhere] at hl
      exact .pure ⟨l', hl, hy.below (.values hus)⟩
  | «continue» exit =>
    obtain ⟨l', hl, hy⟩ := hy
    rw [loopOn]
    by_cases hhere : exit = none ∨ exit = l.id
    · rw [if_pos hhere]
      rw [findLoopAt_here hhere] at hl
      obtain rfl := Option.some.inj hl
      obtain ⟨t', hg, hadv⟩ := exits_adv hy htop
      exact (hagain g t' hg).before hadv
    · rw [if_neg hhere]
      rw [findLoopAt_there hhere] at hl
      exact .pure ⟨l', hl, hy.below (.values hus)⟩

end Ways

end Run

end LambdaMoo
