import LambdaMoo.LiteralRoundTrip
import LambdaMoo.Statements

/-!
# Literals through the whole system

What the items of `LiteralRoundTrip` return when they are executed, the machine
returns where the bytes of a vector encode them. The text of a value is read by
the lexer and the parser, compiled to bytes and run by the machine, which
returns the value.
-/

set_option autoImplicit false

namespace LambdaMoo.Run
open LambdaMoo.DbIo LambdaMoo.Execute LambdaMoo.CodeGen LambdaMoo.Parse

/-- The bytes from an offset on are those of these items. -/
def Encodes (T : Tables) (bc : Bytecodes) : ℕ → List Item → Prop
  | _, [] => True
  | pos, .byte b::code =>
    b < 256 ∧ bc.vector[pos]? = some (UInt8.ofNat b) ∧ Encodes T bc (pos+1) code
  | pos, .literal v::code => ∃ slot pos', bc.readLiteral pos = some (slot, pos') ∧
    T.literals[slot]? = some v ∧ Encodes T bc pos' code
  | _, _::_ => False

section Items
variable {σ : Type} [FloatOps] (host : Host σ) {T : Tables} {bc : Bytecodes} {pos : ℕ}
  {o : Opcode} {code : List Item} {st : List Var} (f : Frame (Regs σ))

omit [FloatOps] in
theorem fetch_decodes {b : Byte} (hb : bc.vector[pos]? = some b) :
    bc.fetch pos = bc.decode (Opcode.ofByte b) (pos+1) := by
  rw [Bytecodes.fetch, hb]
  rfl

/-- Where the items go on, the machine goes on with the bytes of the rest. -/
theorem step_advances {code' : List Item} {st' : List Var}
    (h : Parse.step o code st = some (.go code' st')) (hf : bc.fetch pos = bc.decode o (pos+1))
    (he : Encodes T bc (pos+1) code) : ∃ pos', Encodes T bc pos' code' ∧
      advance host T bc ⟨pos, st, f⟩ = .ok (.next ⟨pos', st', f⟩) := by
  unfold Parse.step at h
  split at h
  · next _ v b code =>
    obtain ⟨slot, pos', hread, hv, hb, hbyte, hrest⟩ := he
    have hi : bc.fetch pos = some (.imm slot, pos') := by
      rw [hf, Bytecodes.decode, hread]
      rfl
    have hm : move host T bc ⟨pos, st, f⟩ = imm T bc slot ⟨pos', st, f⟩ := by
      rw [move, hi]
      rfl
    rw [advance, hm, imm, hbyte, hv]
    split at h
    · next hpop =>
      cases h
      subst hpop
      exact ⟨pos'+1, hrest, rfl⟩
    · next hpop =>
      cases h
      have hne : UInt8.ofNat b ≠ Opcode.toByte .pop := by
        intro hc
        have := congrArg UInt8.toNat hc
        rw [Opcode.toByte, UInt8.toNat_ofNat_of_lt' hb,
          UInt8.toNat_ofNat_of_lt' (by decide)] at this
        exact hpop this
      rw [if_neg (by simpa using hne)]
      exact ⟨pos', ⟨hb, hbyte, hrest⟩, rfl⟩
  all_goals cases h
  all_goals
    rw [advance, move, hf]
    exact ⟨pos+1, he, rfl⟩

/-- Where the items end, the machine unwinds with their value. -/
theorem step_unwinds {v : Var} (h : Parse.step o code st = some (.halt v))
    (hf : bc.fetch pos = bc.decode o (pos+1)) :
    ∃ z, move host T bc ⟨pos, st, f⟩ = .ok (.unwind .return v z) := by
  unfold Parse.step at h
  split at h
  · split at h
    · cases h
    · cases h
  all_goals cases h
  all_goals
    rw [move, hf]
    exact ⟨_, rfl⟩

/-- What the execution of items gives, the machine returns, from any offset where the bytes of a
vector are theirs. -/
theorem execute_advances (fuel : ℕ) {v : Var} (h : execute fuel code st = some v)
    (he : Encodes T bc pos code) : ∃ y z, Advances host T bc ⟨pos, st, f⟩ y ∧
      move host T bc y = .ok (.unwind .return v z) := by
  induction fuel generalizing pos code st with
  | zero => cases h
  | succ fuel ih =>
    unfold execute at h
    split at h
    · next b code =>
      have hf := fetch_decodes he.2.1
      split at h
      · next code' st' hs =>
        obtain ⟨pos', he', hadvance⟩ := step_advances host f hs hf he.2.2
        obtain ⟨y, z, hy, hz⟩ := ih h he'
        exact ⟨y, z, .head hadvance hy, hz⟩
      · next w hs =>
        cases h
        obtain ⟨z, hz⟩ := step_unwinds host f hs hf
        exact ⟨_, z, .refl, hz⟩
      · cases h
    · cases h

end Items

section Literals
variable {σ : Type} [FloatOps] (host : Host σ)

mutual
theorem evalExpr_literal (dollar : Option Var) (f : Frame σ) :
    ∀ v, evalExpr host dollar (literalExpr v) f = .ok (.value v f)
  | .list [] => rfl
  | .list (w::ws) => by
    have hw := evalExpr_literal dollar f w
    have hws := evalArgs_literal dollar f ws [w]
    rw [literalExpr, evalExpr, literalArgs, evalArgList]
    simp only [bind, Eval.bind, Except.bind, hw]
    exact hws
  | .int _ | .obj _ | .str _ | .err _ | .clear | .none | .catch _ | .finally _ | .float _
  | .waif _ => rfl
theorem evalArgs_literal (dollar : Option Var) (f : Frame σ) : ∀ ws acc,
    evalArgs host dollar (literalArgs ws) (.list acc) f = .ok (.value (.list (acc++ws)) f)
  | [], acc => by
    rw [List.append_nil]
    rfl
  | w::ws, acc => by
    have hw := evalExpr_literal dollar f w
    have hws := evalArgs_literal dollar f ws (acc++[w])
    rw [List.append_assoc] at hws
    rw [literalArgs, evalArgs]
    simp only [bind, Eval.bind, Except.bind, hw]
    exact hws
end

end Literals

mutual
theorem literal_accepts (dollar : Bool) :
    ∀ v, Literal v → (literalExpr v).accepts dollar = true
  | .list ws, hv => by
    rw [literalExpr, Expr.accepts]
    exact literals_accepts dollar ws hv
  | .int _, _ | .obj _, _ | .str _, _ | .err _, _ => rfl
theorem literals_accepts (dollar : Bool) :
    ∀ ws, LiteralAll ws → (literalArgs ws).accepts dollar = true
  | [], _ => rfl
  | w::ws, hv => by
    rw [literalArgs, ArgList.accepts, literal_accepts dollar w hv.1,
      literals_accepts dollar ws hv.2]
    rfl
end

theorem returnStmt_accepts {v : Var} (hv : Literal v) : (returnStmt v).accepts [] = true := by
  have := literal_accepts false v hv
  simpa [returnStmt, Stmts.single, Stmts.accepts, Stmt.accepts] using this

section Programs
variable {σ : Type} [FloatOps]

theorem evalStmts_returnStmt (p : Program σ) (f : Frame σ) (v : Var) :
    evalStmts p.host p.forkTree 0 (returnStmt v) f = .ok (.value (.return v) f) := by
  have := evalExpr_literal p.host none f v
  rw [returnStmt, Stmts.single, evalStmts, evalStmt]
  simp only [bind, Eval.bind, Except.bind, this]
  rfl

/-- The text of a literal is read as a program, and whatever vector a program that it is read as is
compiled to, the machine returns the value and has changed nothing. -/
theorem literal_runs (x : Library) (hx : x.Ascii) (functions : List Str) (q : Printer) {v : Var}
    (hlv : Literal v) : (∃ ss, Parses x functions (returning (valueToLiteral q v)) ss) ∧
    ∀ ss, Parses x functions (returning (valueToLiteral q v)) ss →
    ∀ (p : Program σ) (g g' : GState) (vector : Finished), stmtToCode ss g = .ok (vector, g') →
    g'.literals <+: p.T.literals → g'.forkVectors <+: p.T.forkVectors → Fits vector →
    p.v = vector.vec → ∀ f : Frame σ, f.Clean → ∀ t : Var,
      ∃ y z t', Advances p.host p.T vector.bc ⟨0, [], f.regs t⟩ y ∧
        advance p.host p.T vector.bc y = .ok (.leave .return v z) ∧ z.frame = f.regs t' := by
  obtain ⟨L, hL, hq⟩ := tokens_returning hx q hlv
  constructor
  · refine ⟨returnStmt v, ?_, startParse currentVersion, ?_, rfl⟩
    · rw [hL]
      exact hq
    · rw [hL]
      exact derives_program hlv _
  · intro ss hparse p g g' vector hcode hlit hforks hfits hv f hf t
    obtain ⟨-, s, hd, -⟩ := hparse
    rw [hL] at hd
    obtain rfl := program_unique hlv hd
    obtain ⟨w, y, z, t', hw, hy, hz, hframe⟩ := program_returns p (returnStmt_accepts hlv) hcode
      hlit hforks hfits hv 0 hf t (evalStmts_returnStmt p f v)
    rcases hw with ⟨h, -⟩|h
    · cases h
    · obtain rfl : v = w := Way.return.inj h
      exact ⟨y, z, t', hy, hz, hframe⟩

end Programs

/-- The list `{7, {}, "a"}`. -/
def sevenList : Var := .list [.int 7, .list [], .str [97]]

theorem sevenList_literal : Literal sevenList := by
  simp only [sevenList, Literal, LiteralAll, and_true, true_and]
  exact ⟨⟨['a'], by decide⟩, by decide, by decide⟩

def listVector : Finished where
  bc := {
    numbytesLabel := 1
    numbytesLiteral := 1
    numbytesFork := 1
    numbytesVarName := 1
    numbytesStack := 1
    vector := [130, 16, 101, 102, 100, 0, 102, 108, 110]
    size := 9
    maxStack := 2 }
  code := [.byte 130 0, .byte 16 1, .byte 101 1, .byte 102 2, .byte 100 1, .operand .literal 0,
    .byte 102 2, .byte 108 1, .byte 110 0]

theorem listVector_fits : Fits listVector := by
  constructor
  · intro n d h
    simp only [listVector, List.mem_cons, Cell.byte.injEq, reduceCtorEq, List.not_mem_nil,
      or_false, false_or] at h
    omega
  · intro kind value h
    simp only [listVector, List.mem_cons, Cell.operand.injEq, reduceCtorEq, List.not_mem_nil,
      or_false, false_or] at h
    simp [h.1, h.2, listVector, Bytecodes.fixupSize]

theorem listVector_short : listVector.vec.bc.vector.length < 2^64 := by
  simp [listVector, Finished.vec]

theorem listVector_labels : listVector.vec.bc.numbytesLabel ≤ 8 := by
  simp [listVector, Finished.vec]

theorem listVector_depths : listVector.vec.bc.numbytesStack ≤ 8 := by
  simp [listVector, Finished.vec]

theorem listVector_literals : ∀ u ∈ (⟨[.str [97]], []⟩ : Tables).literals, unmarked u := by
  simp [unmarked]

theorem listVector_forks : ∀ f vector body, (⟨[.str [97]], []⟩ : Tables).forkVectors[f]? = some vector →
    Compiled ⟨[.str [97]], []⟩ body vector → bareHost.fork f = noTasks body := by simp

def listProgram : Program Unit where
  host := bareHost
  T := ⟨[.str [97]], []⟩
  v := listVector.vec
  sound := bareHost_sound
  literals := listVector_literals
  short := listVector_short
  forkTree := noTasks
  forks := listVector_forks
  labels := listVector_labels
  depths := listVector_depths

theorem literal_runs_list : ∃ ss, Parses asciiLibrary [] (returning (valueToLiteral
      ⟨fun _ => [], fun _ => (0, 0)⟩ sevenList)) ss ∧ ∃ y z t',
    @Advances Unit noFloats bareHost listProgram.T listVector.bc ⟨0, [], fiveFrame.regs .none⟩ y ∧
    @advance Unit noFloats bareHost listProgram.T listVector.bc y
      = .ok (.leave .return sevenList z) ∧ z.frame = fiveFrame.regs t' := by
  obtain ⟨⟨ss, hss⟩, hruns⟩ := @literal_runs Unit noFloats asciiLibrary asciiLibrary_ascii []
    ⟨fun _ => [], fun _ => (0, 0)⟩ sevenList sevenList_literal
  obtain ⟨L, hL, hq⟩ := tokens_returning asciiLibrary_ascii
    (⟨fun _ => [], fun _ => (0, 0)⟩ : Printer) sevenList_literal
  obtain ⟨s, hd⟩ : ∃ s, Grammar.Derives (rules asciiLibrary []) [] [n .program]
      (startParse currentVersion) (returnTokens sevenList) [.stmts ss] s [] := by
    obtain ⟨-, s, hd, -⟩ := hss
    rw [hL] at hd
    exact ⟨s, hd⟩
  obtain rfl := program_unique sevenList_literal hd
  exact ⟨_, hss, hruns _ hss listProgram initGstate ⟨0, [.str [97]], []⟩ listVector rfl
    (List.prefix_refl _) (List.prefix_refl _) listVector_fits rfl fiveFrame fiveFrame_clean .none⟩

end LambdaMoo.Run
