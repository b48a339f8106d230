import LambdaMoo.Items

/-!
# What the generator counts

Every emitter changes the counters of the state in a way that the emitted
item determines, so the counters after a tree are a fold over its items. The
operand stack comes back to its depth, and its maximum is the need of the tree.
-/

set_option autoImplicit false

namespace LambdaMoo

namespace CodeGen

/-- A cell without the target of a label or the depth of a byte. -/
inductive Entry where
  | byte (n : ℕ)
  | operand (kind : FixupKind) (value : ℕ)
  | label
  deriving DecidableEq, Repr

def Cell.entry : Cell → Entry
  | .byte n _ => .byte n
  | .operand kind value => .operand kind value
  | .label _ => .label

/-- The part of the state that does not depend on where labels point. -/
structure Account where
  entries : List Entry
  num : Counts
  maxLiteral : ℕ
  maxFork : ℕ
  maxVarRef : ℕ
  totalVarRefs : ℕ
  literals : List Var
  forks : ℕ
  deriving DecidableEq, Repr

def State.account (s : State) : Account where
  entries := s.code.map Cell.entry
  num := s.num
  maxLiteral := s.maxLiteral
  maxFork := s.maxFork
  maxVarRef := s.maxVarRef
  totalVarRefs := s.gstate.totalVarRefs
  literals := s.gstate.literals
  forks := s.gstate.forkVectors.length

def Account.emit (a : Account) : Item → Account
  | .byte n => { a with entries := a.entries++[.byte n] }
  | .literal v =>
    let (i, literals) := internLiteral v a.literals
    { a with
      entries := a.entries++[.operand .literal i]
      num := { a.num with literals := a.num.literals+1 }
      maxLiteral := max a.maxLiteral i
      literals := literals }
  | .fork =>
    { a with
      entries := a.entries++[.operand .fork a.forks]
      num := { a.num with forks := a.num.forks+1 }
      maxFork := max a.maxFork a.forks
      forks := a.forks+1 }
  | .varRef slot =>
    { a with
      entries := a.entries++[.operand .varRef slot]
      num := { a.num with varRefs := a.num.varRefs+1 }
      maxVarRef := max a.maxVarRef slot
      totalVarRefs := a.totalVarRefs+1 }
  | .label =>
    { a with
      entries := a.entries++[.label]
      num := { a.num with labels := a.num.labels+1 } }
  | .stack index => { a with entries := a.entries++[.operand .stack index] }
  | .forked i =>
    let b := a.emit i
    { a with totalVarRefs := b.totalVarRefs, literals := b.literals, forks := b.forks }

def Account.emits (a : Account) (items : List Item) : Account := items.foldl Account.emit a

@[simp] theorem Account.emits_nil (a : Account) : a.emits [] = a := rfl

@[simp] theorem Account.emits_cons (a : Account) (i : Item) (items : List Item) :
    a.emits (i::items) = (a.emit i).emits items := rfl

@[simp] theorem Account.emits_append (a : Account) (items items' : List Item) :
    a.emits (items++items') = (a.emits items).emits items' := List.foldl_append

/-- A step that emits one cell. -/
theorem State.account_snoc {s s' : State} {a : Account} (c : Cell) (hcode : s'.code = s.code ++ [c])
    (h : { s'.account with entries := s.account.entries ++ [c.entry] } = a) : s'.account = a := by
  have hentries : s'.account.entries = s.account.entries ++ [c.entry] :=
    (congrArg (List.map Cell.entry) hcode).trans List.map_append
  rw [← h, ← hentries]

@[simp] theorem emitByte_account (b : ℕ) (s : State) :
    (emitByte b s).account = s.account.emit (.byte b) := State.account_snoc (.byte b _) rfl rfl

@[simp] theorem emitOp_account (op : Opcode) (s : State) :
    (emitOp op s).account = s.account.emit (.op op) := emitByte_account _ _

@[simp] theorem emitExtendedByte_account (eop : ExtendedOpcode) (s : State) :
    (emitExtendedByte eop s).account = s.account.emits (extendedItems eop) := by
  simp [emitExtendedByte, extendedItems]

@[simp] theorem emitEither_account (op : Opcode ⊕ ExtendedOpcode) (s : State) :
    (emitEither op s).account = s.account.emits (eitherItems op) := by
  cases op <;> simp [emitEither, eitherItems]

@[simp] theorem addLiteral_account (v : Var) (s : State) :
    (addLiteral v s).account = s.account.emit (.literal v) :=
  State.account_snoc (.operand .literal _) rfl rfl

@[simp] theorem addFork_account (b : Finished) (s : State) :
    (addFork b s).account = s.account.emit .fork :=
  State.account_snoc (.operand .fork _) rfl
    (congrArg (fun n => { s.account.emit .fork with forks := n })
      (List.length_append : (s.gstate.forkVectors ++ [b]).length = _))

@[simp] theorem addVarRef_account (slot : ℕ) (s : State) :
    (addVarRef slot s).account = s.account.emit (.varRef slot) :=
  State.account_snoc (.operand .varRef slot) rfl rfl

@[simp] theorem addStackRef_account (index : ℕ) (s : State) :
    (addStackRef index s).account = s.account.emit (.stack index) :=
  State.account_snoc (.operand .stack index) rfl rfl

@[simp] theorem addKnownLabel_account (l : Label) (s : State) :
    (addKnownLabel l s).account = s.account.emit .label := State.account_snoc (.label l) rfl rfl

@[simp] theorem addLinkedLabel_account (next : Option ℕ) (s : State) :
    (addLinkedLabel next s).2.account = s.account.emit .label := addKnownLabel_account _ s

@[simp] theorem addLabel_account (s : State) :
    (addLabel s).2.account = s.account.emit .label := addLinkedLabel_account none s

@[simp] theorem addPseudoLabel_account (value : ℕ) (s : State) :
    (addPseudoLabel value s).account = s.account.emit .label := addKnownLabel_account _ s

@[simp] theorem pushStack_account (n : ℕ) (s : State) : (pushStack n s).account = s.account := rfl

@[simp] theorem popStack_account (n : ℕ) (s : State) : (popStack n s).account = s.account := rfl

@[simp] theorem saveStackTop_account (s : State) :
    (saveStackTop s).2.account = s.account := rfl

@[simp] theorem restoreStackTop_account (old : Option ℕ) (s : State) :
    (restoreStackTop old s).account = s.account := rfl

@[simp] theorem enterLoop_account (id : Option ℕ) (top : Label) (topStack : ℕ)
    (bottom : Option ℕ) (bottomStack : ℕ) (s : State) :
    (enterLoop id top topStack bottom bottomStack s).account = s.account := rfl

@[simp] theorem exitLoop_account (s : State) : (exitLoop s).2.account = s.account := rfl

/-- Defining a label changes the target of label cells only. -/
theorem defineChain_entries (value : ℕ) (prev : Counts) (n : ℕ) (label : Option ℕ)
    (code : List Cell) :
    (defineChain value prev n label code).map Cell.entry = code.map Cell.entry := by
  induction n generalizing label code with
  | zero => rfl
  | succ n ih =>
    cases label with
    | none => rfl
    | some k =>
      rw [defineChain]
      split
      · rename_i l hl
        rw [ih, List.map_set]
        apply List.ext_getElem?
        intro i
        grind [Cell.entry]
      · rfl

@[simp] theorem defineLabel_account (label : Option ℕ) (s : State) :
    (defineLabel label s).account = s.account := by
  simp [defineLabel, State.account, defineChain_entries]

end CodeGen
end LambdaMoo
