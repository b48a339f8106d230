import LambdaMoo.Listing
import LambdaMoo.Widths

/-!
# Steps of an activation

`run()` takes the instruction at the program counter and changes the operand
stack, the variables and, for most instructions, more than that. The ones that
loops and scattering assignments are made of are given here; the others are a
parameter, as is the rest of the server that they change.
-/

set_option autoImplicit false

namespace LambdaMoo.Run
open LambdaMoo.Execute

/-- The variables of an activation, and everything else but its operand stack. -/
structure Frame (σ : Type) where
  env : ℕ → Var
  world : σ

def Frame.set {σ : Type} (f : Frame σ) (id : ℕ) (v : Var) : Frame σ :=
  { f with env := Function.update f.env id v }

/-- The top of the stack comes first. -/
structure Activ (σ : Type) where
  pc : ℕ
  stack : List Var
  frame : Frame σ

/-- After an error, the activation that goes on where the debug flag is off. -/
inductive Outcome (σ : Type) where
  | next (a : Activ σ)
  | raise (e : Err) (a : Activ σ)

def underflow {α : Type} : Result α := .error (.undefined "operand stack")

section Instructions
variable {σ : Type}

/-- `OP_FOR_LIST`, with the program counter behind it. -/
def forList (id label : ℕ) (a : Activ σ) : Result (Outcome σ) :=
  match a.stack with
  | .int count::.list l::st =>
    if count.toInt > l.length then return .next ⟨label, st, a.frame⟩
    else match if 1 ≤ count.toInt then l[(count.toInt-1).toNat]? else none with
      | some v => return .next ⟨a.pc, .int (count+1)::.list l::st, a.frame.set id v⟩
      | none => .error (.undefined "element of a list")
  | _::.list _::_ => .error (.undefined "loop index")
  | _::_::st => return .raise .type ⟨label, st, a.frame⟩
  | _ => underflow

def maxint : ℤ := 2^63-1

/-- The part of `OP_FOR_RANGE` for bounds of one type. -/
def forBounds (mk : Num → Var) (id label : ℕ) (hi lo : Num) (st : List Var) (a : Activ σ) :
    Outcome σ :=
  if lo.toInt > hi.toInt then .next ⟨label, st, a.frame⟩
  else if lo.toInt < maxint then .next ⟨a.pc, mk hi::mk (lo+1)::st, a.frame.set id (mk lo)⟩
  else .next ⟨a.pc, mk (hi-1)::mk lo::st, a.frame.set id (mk lo)⟩

/-- `OP_FOR_RANGE`. -/
def forRange (id label : ℕ) (a : Activ σ) : Result (Outcome σ) :=
  match a.stack with
  | .int hi::.int lo::st => return forBounds .int id label hi lo st a
  | .obj hi::.obj lo::st => return forBounds .obj id label hi lo st a
  | _::_::st => return .raise .type ⟨label, st, a.frame⟩
  | _ => underflow

/-- What `EOP_SCATTER` has done so far; `dest` is the label it will jump to, or 0. -/
structure Scattering (σ : Type) where
  offset : ℤ
  noptAvail : ℤ
  frame : Frame σ
  dest : ℕ

def listElement (l : List Var) (i : ℤ) : Result Var :=
  match if 1 ≤ i then l[(i-1).toNat]? else none with
  | some v => .ok v
  | none => .error (.undefined "element of a list")

/-- The target with number `i`. -/
def scatterTarget (l : List Var) (rest : ℕ) (nrest : ℤ) (i : ℕ) (target : ℕ × ℕ)
    (s : Scattering σ) : Result (Scattering σ) :=
  let (id, label) := target
  if i = rest then do
    let xs ← sublist l i (i+nrest-1)
    return { s with frame := s.frame.set id (.list xs), offset := s.offset+(nrest-1) }
  else if label = 0 then do
    return { s with frame := s.frame.set id (← listElement l (i+s.offset)) }
  else if s.noptAvail > 0 then do
    return { s with
      noptAvail := s.noptAvail-1
      frame := s.frame.set id (← listElement l (i+s.offset)) }
  else return { s with
    offset := s.offset-1
    dest := if s.dest = 0 ∧ label ≠ 1 then label else s.dest }

def scatterTargets (l : List Var) (rest : ℕ) (nrest : ℤ) :
    ℕ → List (ℕ × ℕ) → Scattering σ → Result (Scattering σ)
  | _, [], s => .ok s
  | i, target::targets, s => do
    scatterTargets l rest nrest (i+1) targets (← scatterTarget l rest nrest i target s)

/-- `EOP_SCATTER`. -/
def scatter (nargs nreq rest : ℕ) (targets : List (ℕ × ℕ)) (done : ℕ) (a : Activ σ) :
    Result (Outcome σ) :=
  let haveRest := ¬rest > nargs
  match a.stack with
  | .list l::st =>
    if l.length < nreq ∨ ¬haveRest ∧ l.length > nargs then
      return .raise .args ⟨done, .err .args::st, a.frame⟩
    else do
      let nrest : ℤ := if haveRest ∧ l.length ≥ nargs then l.length-nargs+1 else 0
      let s ← scatterTargets l rest nrest 1 targets ⟨0, l.length-nreq, a.frame, 0⟩
      return .next ⟨if s.dest = 0 then done else s.dest, .list l::st, s.frame⟩
  | _::st => return .raise .type ⟨done, .err .type::st, a.frame⟩
  | [] => underflow

/-- `OP_PUT` of a variable; the short form takes an `OP_POP` behind it along. -/
def put (bc : Bytecodes) (ready : Bool) (id : ℕ) (a : Activ σ) : Result (Outcome σ) :=
  match a.stack with
  | v::st =>
    if ready = true ∧ bc.vector[a.pc]? = some (Opcode.toByte .pop) then
      return .next ⟨a.pc+1, st, a.frame.set id v⟩
    else return .next ⟨a.pc, v::st, a.frame.set id v⟩
  | [] => underflow

variable (other : Instr → Activ σ → Result (Outcome σ))

/-- An instruction, with the program counter behind it. -/
def exec (bc : Bytecodes) (i : Instr) (a : Activ σ) : Result (Outcome σ) :=
  match i with
  | .jump label => return .next { a with pc := label }
  | .num n => return .next { a with stack := .int n::a.stack }
  | .pop =>
    match a.stack with
    | _::st => return .next { a with stack := st }
    | [] => underflow
  | .put ready id => put bc ready id a
  | .forList id label => forList id label a
  | .forRange id label => forRange id label a
  | .scatter nargs nreq rest targets done => scatter nargs nreq rest targets done a
  | i => other i a

def step (bc : Bytecodes) (a : Activ σ) : Result (Outcome σ) :=
  match bc.fetch a.pc with
  | some (i, pc) => exec other bc i { a with pc := pc }
  | none => .error (.undefined "opcode")

/-- The machine gets from one activation to another. -/
def Steps (bc : Bytecodes) : Activ σ → Activ σ → Prop :=
  Relation.ReflTransGen fun a b => step other bc a = .ok (.next b)

end Instructions

section Steps
variable {σ : Type} {other : Instr → Activ σ → Result (Outcome σ)} {v : CodeGen.Vec}

theorem Steps.one {d a a' : ℕ} {i : Instr} {st : List Var} {f : Frame σ} {b : Activ σ}
    (h : v.instr d i a a') (he : exec other v.bc i ⟨a', st, f⟩ = .ok (.next b)) :
    Steps other v.bc ⟨a, st, f⟩ b := by
  refine .single ?_
  rw [step, h.1]
  exact he

theorem Steps.trans {a b c : Activ σ} (h : Steps other v.bc a b) (h' : Steps other v.bc b c) :
    Steps other v.bc a c := Relation.ReflTransGen.trans h h'

end Steps

end LambdaMoo.Run
