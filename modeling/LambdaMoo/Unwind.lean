import LambdaMoo.Values

/-!
# Unwinding the activation stack

A raised error, a return, a loop exit or an abort cuts the operand stacks back
to the next handler, frame by frame, and resumes the built-in functions whose
verb calls it leaves. Stacks are listed from the top. The built-in functions
are a parameter, with the rest of the server as a state they change.
-/

set_option autoImplicit false

namespace LambdaMoo.Execute

inductive Reason where
  | fallThru | raise | uncaught | return | abort | exit
  deriving DecidableEq, Repr

def Reason.toNum : Reason → Num
  | .fallThru => 0 | .raise => 1 | .uncaught => 2 | .return => 3 | .abort => 4 | .exit => 5

inductive Outcome where
  | done | aborted | blocked
  deriving DecidableEq, Repr

structure Activation (δ : Type) where
  pc : ℕ
  errorPc : ℕ
  rtStack : List Var
  this : Var
  verb : Str
  vloc : Objid
  progr : Objid
  player : Objid
  debug : Bool
  biFuncPc : ℕ
  biFuncId : ℕ
  biFuncData : δ

/-- What a built-in function returns; a call comes with the activation it has pushed, and a
suspension with what came of it. -/
inductive Package (δ : Type) where
  | return (ret : Var)
  | raise (code : Var) (msg : Str) (value : Var)
  | call (pc : ℕ) (data : δ) (pushed : Activation δ)
  | suspend (e : Err)
  | kill

/-- The built-in functions, and the two tables that a traceback reads. -/
structure Server (δ σ : Type) where
  callBiFunc : ℕ → Var → ℕ → Objid → δ → List (Activation δ) → σ → Package δ × σ
  nameFuncByNum : ℕ → Str
  findLineNumber : Activation δ → Bool → Num

def handles (code codes : Var) : Bool :=
  match codes with
  | .list list => list.any fun v => equality false code v
  | _ => true

/-- The label of the first arm for a code; the arms are listed from the base. -/
def findArm (code : Var) : List Var → Option Var
  | codes::label::arms => if handles code codes then some label else findArm code arms
  | _ => none

/-- How the loop over one operand stack ends. -/
inductive Stop where
  | handler (pc : ℕ) (rtStack : List Var)
  | bare (rtStack : List Var)
  deriving DecidableEq, Repr

def unwindRt (why : Reason) (code value : Var) (goal : ℕ) (rt : List Var) : Result Stop :=
  match rt with
  | [] => .ok (.bare [])
  | v::rest =>
    if rest.length < goal then .ok (.bare (v::rest))
    else match v with
      | .finally pc =>
        if why ≠ .abort then .ok (.handler pc.toNat (value::.int why.toNum::rest))
        else unwindRt why code value goal rest
      | .catch num =>
        if why = .raise then
          if 2*num.toNat ≤ rest.length then
            match findArm code (rest.take (2*num.toNat)).reverse with
            | some (.int label) =>
              .ok (.handler label.toNat (value::rest.drop (2*num.toNat)))
            | some _ => .error (.panic "Non-numeric PC value on stack!")
            | none => unwindRt why code value goal (rest.drop (2*num.toNat))
          else .error (.undefined "handlers below the base of the stack")
        else unwindRt why code value goal rest
      | _ => unwindRt why code value goal rest
termination_by rt.length
decreasing_by all_goals (simp only [List.length_cons, List.length_drop]; omega)

def hasArm (code : Var) : List Var → Bool
  | codes::_::arms => handles code codes || hasArm code arms
  | _ => false

def findHandlerRt (code : Var) (rt : List Var) : Result Bool :=
  match rt with
  | [] => .ok false
  | .catch num::rest =>
    if 2*num.toNat ≤ rest.length then
      if hasArm code (rest.take (2*num.toNat)).reverse then .ok true
      else findHandlerRt code (rest.drop (2*num.toNat))
    else .error (.undefined "handlers below the base of the stack")
  | _::rest => findHandlerRt code rest
termination_by rt.length
decreasing_by all_goals (simp only [List.length_cons, List.length_drop]; omega)

section
variable {δ σ : Type}

def findHandlerActiv (code : Var) : List (Activation δ) → Result ℤ
  | [] => .ok (-1)
  | a::rest => do
    if ← findHandlerRt code a.rtStack then return rest.length
    else findHandlerActiv code rest

/-- The frames from the top down to the one at `start`, each followed by the built-in function
that called it. -/
def makeStackList (sv : Server δ σ) (start : ℕ) : List (Activation δ) → List Var
  | [] => []
  | a::rest =>
    if rest.length < start then []
    else .list [a.this, .str a.verb, .obj a.progr, .obj a.vloc, .obj a.player,
        .int (sv.findLineNumber a rest.isEmpty)]::
      ((if rest.length ≠ start ∧ a.biFuncPc ≠ 0 then
        [.list [.obj nothing, .str (sv.nameFuncByNum a.biFuncId), .obj nothing, .obj nothing,
          .obj a.player, .int (BitVec.ofNat 64 a.biFuncPc)]]
        else [])++makeStackList sv start rest)

/-- One call of `call_bi_func`, with the programmer of the activation whose built-in it is. -/
structure BiCall where
  id : ℕ
  pc : ℕ
  progr : Objid
  caller : Objid
  deriving DecidableEq, Repr

/-- The machine when unwinding is over: the outcome if the task is. -/
structure Unwound (δ σ : Type) where
  outcome : Option Outcome
  activStack : List (Activation δ)
  world : σ
  calls : List BiCall

def Unwound.after (calls : List BiCall) (r : Unwound δ σ) : Unwound δ σ :=
  { r with calls := calls++r.calls }

/-- A built-in function on the way of an error or abort: it gets zero, and the verbs it calls are
taken off the stack at once. The programmer is read through a pointer to the frame above. -/
def shortCircuit (sv : Server δ σ) (id : ℕ) (caller : Objid) (rest : List (Activation δ)) :
    ℕ → ℕ → Objid → δ → σ → Result (List BiCall × σ)
  | 0, _, _, _, _ => .error .outOfFuel
  | fuel+1, pc, progr, data, w =>
    match sv.callBiFunc id zero pc progr data rest w with
    | (.call pc' data' pushed, w') =>
      if pc' = 0 then .ok ([⟨id, pc, progr, caller⟩], w')
      else do
        let (calls, w'') ← shortCircuit sv id caller rest fuel pc' pushed.progr data' w'
        return (⟨id, pc, progr, caller⟩::calls, w'')
    | (_, w') => .ok ([⟨id, pc, progr, caller⟩], w')

/-- The reason and value that `raise_error` unwinds with. -/
def raiseWith (sv : Server δ σ) (code : Var) (msg : Str) (value : Var)
    (acts : List (Activation δ)) : Result (Reason × Var) := do
  let handlerActiv ← findHandlerActiv code acts
  if 0 ≤ handlerActiv then
    return (.raise, .list [code, .str msg, value, .list (makeStackList sv handlerActiv.toNat acts)])
  else return (.uncaught, zero)

/-- The loop over the operand stack of one activation, and the label of a loop exit. -/
def unwindFrame (why : Reason) (value : Var) (rt : List Var) : Result (Stop × ℕ) :=
  match why, value with
  | .raise, .list (code::_) => do return (← unwindRt .raise code value 0 rt, 0)
  | .raise, _ => .error (.undefined "a raised value that is not a list")
  | .exit, .list [.int goal, .int label] => do
    return (← unwindRt .exit zero value goal.toNat rt, label.toNat)
  | .exit, _ => .error (.undefined "an exit value that is not a pair")
  | why, _ => do return (← unwindRt why zero value 0 rt, 0)

def unwindStack (sv : Server δ σ) (fuel : ℕ) :
    List (Activation δ) → Reason → Var → σ → Result (Unwound δ σ)
  | [], _, _, _ => .error (.undefined "empty activation stack")
  | a::rest, why, value, w => do
    match ← unwindFrame why value a.rtStack with
    | (.handler pc rt, _) => return ⟨none, { a with pc := pc, rtStack := rt }::rest, w, []⟩
    | (.bare rt, label) =>
      if why = .exit then return ⟨none, { a with pc := label, rtStack := rt }::rest, w, []⟩
      else match rest with
        | [] => return ⟨some (if why = .return then .done else .aborted), [], w, []⟩
        | b::below =>
          if a.biFuncPc ≠ 0 then
            if why = .return then
              let call := [⟨a.biFuncId, a.biFuncPc, b.progr, b.progr⟩]
              match sv.callBiFunc a.biFuncId value a.biFuncPc b.progr a.biFuncData (b::below) w with
              | (.return ret, w') =>
                return ⟨none, { b with rtStack := ret::b.rtStack }::below, w', call⟩
              | (.raise code msg v, w') =>
                if b.debug then do
                  let (why', value') ← raiseWith sv code msg v (b::below)
                  return (← unwindStack sv fuel (b::below) why' value' w').after call
                else return ⟨none, { b with rtStack := code::b.rtStack }::below, w', call⟩
              | (.suspend e, w') =>
                if e = .none then return ⟨some .blocked, b::below, w', call⟩
                else return (← unwindStack sv fuel (b::below) .raise (.err e) w').after call
              | (.call pc data pushed, w') =>
                return ⟨none, { pushed with
                  biFuncId := a.biFuncId, biFuncPc := pc, biFuncData := data }::b::below, w', call⟩
              | (.kill, w') =>
                return (← unwindStack sv fuel (b::below) .abort zero w').after call
            else do
              let (calls, w') ← shortCircuit sv a.biFuncId b.progr (b::below) fuel a.biFuncPc
                a.progr a.biFuncData w
              return (← unwindStack sv fuel (b::below) why value w').after calls
          else if why = .return then
            return ⟨none, { b with rtStack := value::b.rtStack }::below, w, []⟩
          else unwindStack sv fuel (b::below) why value w

/-- `raise_error`: the depth of the traceback is that of the handler that will catch it. -/
def raiseError (sv : Server δ σ) (fuel : ℕ) (code : Var) (msg : Str) (value : Var)
    (acts : List (Activation δ)) (w : σ) : Result (Unwound δ σ) := do
  let (why, value) ← raiseWith sv code msg value acts
  unwindStack sv fuel acts why value w

end
end LambdaMoo.Execute
