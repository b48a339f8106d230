import LambdaMoo.Accounting
import LambdaMoo.Unwind

/-!
# Handlers

An operand stack is a sequence of groups: plain values, markers of `finally`,
and the arms of a `try` or catch expression under their marker.
`find_handler_activ` and `unwind_stack` walk over it independently; they stop
at the same group.
-/

set_option autoImplicit false

namespace LambdaMoo.Execute

/-- A part of an operand stack; the arms are in the order of the source. -/
inductive Group where
  | value (v : Var)
  | finally (pc : Num)
  | catch (arms : List (Var × Num))

def armVars (arms : List (Var × Num)) : List Var := arms.flatMap fun arm => [arm.1, .int arm.2]

def Group.vars : Group → List Var
  | .value v => [v]
  | .finally pc => [.finally pc]
  | .catch arms => .catch (BitVec.ofNat 64 arms.length)::(armVars arms).reverse

/-- A value is no marker, and the number of arms is a number of the stack. -/
def Group.Fair : Group → Prop
  | .value v => v.type ≠ .catch ∧ v.type ≠ .finally
  | .finally _ => True
  | .catch arms => arms.length < 2^64

/-- The groups, from the top, that a stack consists of. -/
structure Grouped (groups : List Group) (rt : List Var) : Prop where
  vars : rt = groups.flatMap Group.vars
  fair : ∀ g ∈ groups, g.Fair

/-- The first arm for a code of the innermost group that has one, and what is below the group. -/
def innermost (code : Var) : List Group → Option (Num × List Group)
  | [] => none
  | .catch arms::groups =>
    match arms.find? fun arm => handles code arm.1 with
    | some arm => some (arm.2, groups)
    | none => innermost code groups
  | .value _::groups | .finally _::groups => innermost code groups

/-- No marker of `finally` is above the handler. -/
def Calm (code : Var) : List Group → Prop
  | [] => True
  | .value _::groups => Calm code groups
  | .finally _::_ => False
  | .catch arms::groups => (arms.find? fun arm => handles code arm.1) = none → Calm code groups

theorem armVars_length (arms : List (Var × Num)) : (armVars arms).length = 2*arms.length := by
  induction arms with
  | nil => rfl
  | cons arm arms ih =>
    rw [armVars, List.flatMap_cons, List.length_append, ← armVars, ih]
    simp
    omega

theorem findArm_armVars (code : Var) (arms : List (Var × Num)) :
    findArm code (armVars arms) =
      (arms.find? fun arm => handles code arm.1).map fun arm => .int arm.2 := by
  induction arms with
  | nil => rfl
  | cons arm arms ih =>
    by_cases h : handles code arm.1 = true
    · simp [armVars, findArm, h]
    · have hrest : findArm code (armVars (arm::arms)) = findArm code (armVars arms) := by
        simp [armVars, findArm, h]
      rw [hrest, ih]
      simp [h]

theorem hasArm_armVars (code : Var) (arms : List (Var × Num)) :
    hasArm code (armVars arms) = (arms.find? fun arm => handles code arm.1).isSome := by
  induction arms with
  | nil => rfl
  | cons arm arms ih =>
    by_cases h : handles code arm.1 = true
    · simp [armVars, hasArm, h]
    · have hrest : hasArm code (armVars (arm::arms)) = hasArm code (armVars arms) := by
        simp [armVars, hasArm, h]
      rw [hrest, ih]
      simp [h]

/-- The arms of a group on top of a stack are cut off exactly. -/
theorem arms_split (arms : List (Var × Num)) (rest : List Var) (h : arms.length < 2^64) :
    2*(BitVec.ofNat 64 arms.length).toNat ≤ ((armVars arms).reverse++rest).length ∧
    (((armVars arms).reverse++rest).take (2*(BitVec.ofNat 64 arms.length).toNat)).reverse =
      armVars arms ∧
    ((armVars arms).reverse++rest).drop (2*(BitVec.ofNat 64 arms.length).toNat) = rest := by
  have hn : (BitVec.ofNat 64 arms.length).toNat = arms.length := by
    rw [BitVec.toNat_ofNat, Nat.mod_eq_of_lt h]
  have hl : (armVars arms).reverse.length = 2*arms.length := by
    rw [List.length_reverse, armVars_length]
  rw [hn, ← hl]
  refine ⟨by simp, ?_, List.drop_left⟩
  rw [List.take_left, List.reverse_reverse]

theorem findHandlerRt_value {v : Var} (h : v.type ≠ .catch) (code : Var) (rest : List Var) :
    findHandlerRt code (v::rest) = findHandlerRt code rest := by
  cases v <;> first | exact absurd rfl h | rw [findHandlerRt]
  all_goals simp

theorem unwindRt_value {v : Var} (hc : v.type ≠ .catch) (hf : v.type ≠ .finally)
    (why : Reason) (code value : Var) (rest : List Var) :
    unwindRt why code value 0 (v::rest) = unwindRt why code value 0 rest := by
  cases v <;> first | exact absurd rfl hc | exact absurd rfl hf | rw [unwindRt]
  all_goals simp

theorem findHandlerRt_groups (code : Var) (groups : List Group) (h : ∀ g ∈ groups, g.Fair) :
    findHandlerRt code (groups.flatMap Group.vars) = .ok (innermost code groups).isSome := by
  induction groups with
  | nil => simp [findHandlerRt, innermost]
  | cons g groups ih =>
    have hg := h g List.mem_cons_self
    have ih := ih fun g' hg' => h g' (List.mem_cons_of_mem g hg')
    rw [List.flatMap_cons]
    cases g with
    | value v => exact (findHandlerRt_value hg.1 code _).trans ih
    | «finally» pc => exact (findHandlerRt_value (by simp [Var.type]) code _).trans ih
    | «catch» arms =>
      obtain ⟨hle, htake, hdrop⟩ := arms_split arms (groups.flatMap Group.vars) hg
      rw [Group.vars, List.cons_append, findHandlerRt, if_pos hle, htake, hdrop, hasArm_armVars, ih,
        innermost]
      cases arms.find? fun arm => handles code arm.1 with
      | none => rfl
      | some arm => rfl

/-- A raised error stops at the innermost arm for its code, with its value in place of the
handlers. -/
theorem unwindRt_groups (code value : Var) (groups : List Group) (h : ∀ g ∈ groups, g.Fair)
    (hcalm : Calm code groups) :
    unwindRt .raise code value 0 (groups.flatMap Group.vars) =
      .ok (match innermost code groups with
        | some (label, below) => .handler label.toNat (value::below.flatMap Group.vars)
        | none => .bare []) := by
  induction groups with
  | nil => simp [unwindRt, innermost]
  | cons g groups ih =>
    have hg := h g List.mem_cons_self
    have ih := ih fun g' hg' => h g' (List.mem_cons_of_mem g hg')
    rw [List.flatMap_cons]
    cases g with
    | value v => exact (unwindRt_value hg.1 hg.2 _ code value _).trans (ih hcalm)
    | «finally» pc => exact hcalm.elim
    | «catch» arms =>
      obtain ⟨hle, htake, hdrop⟩ := arms_split arms (groups.flatMap Group.vars) hg
      rw [Group.vars, List.cons_append, unwindRt, if_neg (Nat.not_lt_zero _), if_pos rfl,
        if_pos hle, htake, hdrop, findArm_armVars, innermost]
      cases hf : arms.find? fun arm => handles code arm.1 with
      | none => exact ih (hcalm hf)
      | some arm => rfl

section
variable {δ σ : Type}

/-- The frame that stops an error, with the arm and what stays on its stack. -/
def target (code : Var) : List (List Group) → Option (ℕ × Num × List Group)
  | [] => none
  | groups::frames =>
    match innermost code groups with
    | some (label, below) => some (frames.length, label, below)
    | none => target code frames

/-- No marker of `finally` is above the handler in its frame or in a frame above it. -/
def CalmFrames (code : Var) : List (List Group) → Prop
  | [] => True
  | groups::frames => Calm code groups ∧ (innermost code groups = none → CalmFrames code frames)

abbrev GroupedFrames (frames : List (List Group)) (acts : List (Activation δ)) : Prop :=
  List.Forall₂ (fun groups a => Grouped groups a.rtStack) frames acts

theorem findHandlerActiv_target (code : Var) {frames : List (List Group)}
    {acts : List (Activation δ)} (h : GroupedFrames frames acts) :
    findHandlerActiv code acts =
      .ok (match target code frames with
        | some (f, _, _) => (f : ℤ)
        | none => -1) := by
  induction h with
  | nil => rfl
  | @cons groups a frames acts hg hrest ih =>
    rw [findHandlerActiv, hg.vars, findHandlerRt_groups code groups hg.fair, target]
    cases innermost code groups with
    | none => exact ih
    | some p =>
      have := hrest.length_eq
      simp [bind, Except.bind, pure, Except.pure, this]

/-- The built-in functions stop calling verbs when these return zero at once. -/
def Ends (sv : Server δ σ) : Prop :=
  ∀ id caller rest pc progr data w,
    ∃ fuel r, shortCircuit sv id caller rest fuel pc progr data w = .ok r

theorem shortCircuit_mono (sv : Server δ σ) (id : ℕ) (caller : Objid)
    (rest : List (Activation δ)) {fuel fuel' : ℕ} (hle : fuel ≤ fuel') {pc : ℕ} {progr : Objid}
    {data : δ} {w : σ} {r : List BiCall × σ}
    (h : shortCircuit sv id caller rest fuel pc progr data w = .ok r) :
    shortCircuit sv id caller rest fuel' pc progr data w = .ok r := by
  induction fuel generalizing fuel' pc progr data w r with
  | zero => cases h
  | succ fuel ih =>
    obtain ⟨fuel', rfl⟩ : ∃ n, fuel' = n+1 := ⟨fuel'-1, by omega⟩
    rw [shortCircuit] at h ⊢
    cases hcall : sv.callBiFunc id zero pc progr data rest w with
    | mk p w' =>
      rw [hcall] at h
      cases p with
      | call pc' data' pushed =>
        dsimp only at h ⊢
        by_cases hpc : pc' = 0
        · rw [if_pos hpc] at h ⊢
          exact h
        · rw [if_neg hpc] at h ⊢
          obtain ⟨p, hp, hr⟩ := bind_ok.mp h
          exact bind_ok.mpr ⟨p, ih (by omega) hp, hr⟩
      | _ => exact h

/-- With enough fuel, a raised error leaves this outcome and these activations. -/
def Unwinds (sv : Server δ σ) (acts : List (Activation δ)) (value : Var) (w : σ)
    (outcome : Option Outcome) (acts' : List (Activation δ)) : Prop :=
  ∃ n, ∀ fuel, n ≤ fuel → ∃ w' calls,
    unwindStack sv fuel acts .raise value w = .ok ⟨outcome, acts', w', calls⟩

theorem unwindStack_handler (sv : Server δ σ) (fuel : ℕ) {a : Activation δ}
    {code : Var} {tail rt : List Var} {pc : ℕ} (rest : List (Activation δ)) (w : σ)
    (h : unwindRt .raise code (.list (code::tail)) 0 a.rtStack = .ok (.handler pc rt)) :
    unwindStack sv fuel (a::rest) .raise (.list (code::tail)) w =
      .ok ⟨none, { a with pc := pc, rtStack := rt }::rest, w, []⟩ := by
  cases rest <;> simp [unwindStack, unwindFrame, h, bind, Except.bind, pure, Except.pure]

theorem unwindStack_last (sv : Server δ σ) (fuel : ℕ) {a : Activation δ}
    {code : Var} {tail rt : List Var} (w : σ)
    (h : unwindRt .raise code (.list (code::tail)) 0 a.rtStack = .ok (.bare rt)) :
    unwindStack sv fuel [a] .raise (.list (code::tail)) w = .ok ⟨some .aborted, [], w, []⟩ := by
  simp [unwindStack, unwindFrame, h, bind, Except.bind, pure, Except.pure]

/-- A frame without a handler is left, through the built-in function that called it. -/
theorem unwindStack_through {sv : Server δ σ} (hsv : Ends sv) {a : Activation δ}
    {code : Var} {tail rt : List Var} {rest acts' : List (Activation δ)} {w : σ}
    {outcome : Option Outcome} (hne : rest ≠ [])
    (h : unwindRt .raise code (.list (code::tail)) 0 a.rtStack = .ok (.bare rt))
    (hrest : ∀ w, Unwinds sv rest (.list (code::tail)) w outcome acts') :
    Unwinds sv (a::rest) (.list (code::tail)) w outcome acts' := by
  obtain ⟨b, below, rfl⟩ := List.exists_cons_of_ne_nil hne
  by_cases hbi : a.biFuncPc = 0
  · obtain ⟨n, hn⟩ := hrest w
    refine ⟨n, fun fuel hfuel => ?_⟩
    obtain ⟨w', calls, hu⟩ := hn fuel hfuel
    refine ⟨w', calls, ?_⟩
    rw [← hu, unwindStack]
    simp [unwindFrame, h, hbi, bind, Except.bind, pure, Except.pure]
  · obtain ⟨m, ⟨calls, w1⟩, hm⟩ := hsv a.biFuncId b.progr (b::below) a.biFuncPc a.progr
      a.biFuncData w
    obtain ⟨n, hn⟩ := hrest w1
    refine ⟨max m n, fun fuel hfuel => ?_⟩
    obtain ⟨w', calls', hu⟩ := hn fuel ((le_max_right m n).trans hfuel)
    have hs := shortCircuit_mono sv _ _ _ ((le_max_left m n).trans hfuel) hm
    refine ⟨w', calls++calls', ?_⟩
    rw [unwindStack]
    simp [unwindFrame, h, hbi, hs, hu, bind, Except.bind, pure, Except.pure, Unwound.after]

theorem Unwinds.unique {sv : Server δ σ} {acts acts1 acts2 : List (Activation δ)} {value : Var}
    {w : σ} {o1 o2 : Option Outcome} (h1 : Unwinds sv acts value w o1 acts1)
    (h2 : Unwinds sv acts value w o2 acts2) : o1 = o2 ∧ acts1 = acts2 := by
  obtain ⟨n, hn⟩ := h1
  obtain ⟨m, hm⟩ := h2
  obtain ⟨w1, c1, hu1⟩ := hn (max n m) (le_max_left n m)
  obtain ⟨w2, c2, hu2⟩ := hm (max n m) (le_max_right n m)
  rw [hu1, Except.ok.injEq, Unwound.mk.injEq] at hu2
  exact ⟨hu2.1, hu2.2.1⟩

/-- Where a raised error stops: in the frame of the target, or nowhere. -/
theorem unwinds_target {sv : Server δ σ} (hsv : Ends sv) {code : Var} (tail : List Var)
    {frames : List (List Group)} {acts : List (Activation δ)} (h : GroupedFrames frames acts)
    (hcalm : CalmFrames code frames) (hne : acts ≠ []) (w : σ) :
    match target code frames with
    | some (f, label, below) => ∃ above a rest groups, acts = above++a::rest ∧ rest.length = f ∧
        Grouped groups a.rtStack ∧ innermost code groups = some (label, below) ∧
        Unwinds sv acts (.list (code::tail)) w none
          ({ a with pc := label.toNat
                    rtStack := .list (code::tail)::below.flatMap Group.vars }::rest)
    | none => Unwinds sv acts (.list (code::tail)) w (some .aborted) [] := by
  induction h generalizing w with
  | nil => exact absurd rfl hne
  | @cons groups a frames acts hg hrest ih =>
    have hrt := unwindRt_groups code (.list (code::tail)) groups hg.fair hcalm.1
    rw [← hg.vars] at hrt
    rw [target]
    cases hi : innermost code groups with
    | some p =>
      rw [hi] at hrt
      refine ⟨[], a, acts, groups, rfl, hrest.length_eq.symm, hg, hi, 0, fun fuel _ => ?_⟩
      exact ⟨w, [], unwindStack_handler sv fuel acts w hrt⟩
    | none =>
      rw [hi] at hrt
      have hcalm' := hcalm.2 hi
      dsimp only
      cases hrest with
      | nil => exact ⟨0, fun fuel _ => ⟨w, [], unwindStack_last sv fuel w hrt⟩⟩
      | @cons groups' b frames' below hg' hrest' =>
        have ih := ih hcalm' (by simp)
        cases ht : target code (groups'::frames') with
        | none =>
          simp only [ht] at ih
          exact unwindStack_through hsv (by simp) hrt ih
        | some t =>
          simp only [ht] at ih
          obtain ⟨above, a', rest, gs, hacts, hlen, hgr, hin, hu⟩ := ih w
          refine ⟨a::above, a', rest, gs, by rw [hacts]; rfl, hlen, hgr, hin, ?_⟩
          refine unwindStack_through hsv (by simp) hrt fun w => ?_
          obtain ⟨above2, a2, rest2, gs2, hacts2, hlen2, hgr2, hin2, hu2⟩ := ih w
          have := List.append_inj (hacts.symm.trans hacts2) (by
            have := congrArg List.length (hacts.symm.trans hacts2)
            simp only [List.length_append, List.length_cons] at this
            omega)
          rw [List.cons.injEq] at this
          obtain ⟨-, rfl, rfl⟩ := this
          exact hu2

/-- `find_handler_activ` names the frame in which `unwind_stack` will stop. -/
theorem findHandlerActiv_iff_unwinds {sv : Server δ σ} (hsv : Ends sv) (code msg value tb : Var)
    {frames : List (List Group)} {acts : List (Activation δ)} (h : GroupedFrames frames acts)
    (hcalm : CalmFrames code frames) (hne : acts ≠ []) (w : σ) :
    (∀ f : ℕ, findHandlerActiv code acts = .ok (f : ℤ) ↔
      ∃ above a rest groups label below, acts = above++a::rest ∧ rest.length = f ∧
        Grouped groups a.rtStack ∧ innermost code groups = some (label, below) ∧
        Unwinds sv acts (.list [code, msg, value, tb]) w none
          ({ a with pc := label.toNat
                    rtStack := .list [code, msg, value, tb]::below.flatMap Group.vars }::rest)) ∧
    (findHandlerActiv code acts = .ok (-1) ↔
      Unwinds sv acts (.list [code, msg, value, tb]) w (some .aborted) []) := by
  have hu := unwinds_target hsv [msg, value, tb] h hcalm hne w
  rw [findHandlerActiv_target code h]
  cases ht : target code frames with
  | none =>
    simp only [ht] at hu
    refine ⟨fun f => ⟨fun hf => ?_, fun hf => ?_⟩, fun _ => hu, fun _ => rfl⟩
    · simp only [Except.ok.injEq] at hf
      omega
    · obtain ⟨above, a, rest, groups, label, below, -, -, -, -, hu'⟩ := hf
      cases (hu.unique hu').1
  | some t =>
    obtain ⟨f', label, below⟩ := t
    simp only [ht] at hu
    obtain ⟨above, a, rest, groups, hacts, hlen, hg, hi, hu⟩ := hu
    refine ⟨fun f => ⟨fun hf => ?_, fun hf => ?_⟩, fun hf => ?_, fun hf => ?_⟩
    · rw [Except.ok.injEq, Nat.cast_inj] at hf
      exact ⟨above, a, rest, groups, label, below, hacts, hlen.trans hf, hg, hi, hu⟩
    · obtain ⟨above', a', rest', groups', label', below', -, hlen', -, -, hu'⟩ := hf
      have := (List.cons.inj (hu.unique hu').2).2
      rw [← hlen, ← hlen', this]
    · simp only [Except.ok.injEq] at hf
      omega
    · cases (hu.unique hf).1

end

/-- A built-in function that a verb of the system object replaces: it returns what that verb
returned. -/
def wrapped : Server Unit Unit := ⟨fun _ v _ _ _ _ w => (.return v, w), fun _ => [], fun _ _ => 1⟩

theorem wrapped_ends : Ends wrapped :=
  fun _ _ _ _ _ _ _ => ⟨1, _, rfl⟩

def frame (biFuncPc : ℕ) (rtStack : List Var) : Activation Unit where
  pc := 0
  errorPc := 0
  rtStack := rtStack
  this := .obj 2
  verb := []
  vloc := 2
  progr := 2
  player := 2
  debug := true
  biFuncPc := biFuncPc
  biFuncId := 0
  biFuncData := ()

/-- An error in a verb that a built-in function called, caught by the frame below. -/
theorem findHandlerActiv_caught :
    ∃ above a rest groups label below,
      [frame 2 [.int 5], frame 0 [.catch 1, .int 7, .list [.err .div], .int 3]] = above++a::rest ∧
        rest.length = 0 ∧ Grouped groups a.rtStack ∧
        innermost (.err .div) groups = some (label, below) ∧
        Unwinds wrapped [frame 2 [.int 5], frame 0 [.catch 1, .int 7, .list [.err .div], .int 3]]
          (.list [.err .div, .str [], zero, .list []]) () none
          ({ a with pc := label.toNat
                    rtStack := .list [.err .div, .str [], zero, .list []]::
                      below.flatMap Group.vars }::rest) := by
  have h : GroupedFrames [[.value (.int 5)], [.catch [(.list [.err .div], 7)], .value (.int 3)]]
      [frame 2 [.int 5], frame 0 [.catch 1, .int 7, .list [.err .div], .int 3]] := by
    refine .cons ⟨rfl, ?_⟩ (.cons ⟨rfl, ?_⟩ .nil)
    · simp [Group.Fair, Var.type]
    · simp [Group.Fair, Var.type]
  have hcalm : CalmFrames (.err .div)
      [[.value (.int 5)], [.catch [(.list [.err .div], 7)], .value (.int 3)]] := by
    simp [CalmFrames, Calm, innermost]
  refine ((findHandlerActiv_iff_unwinds wrapped_ends (.err .div) (.str []) zero (.list []) h hcalm
    (by simp) ()).1 0).mp ?_
  rw [findHandlerActiv_target _ h]
  rfl

end LambdaMoo.Execute
