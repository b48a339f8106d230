import LambdaMoo.GeneratorScopes
import LambdaMoo.LiteralRoundTrip
import LambdaMoo.ParseScopesStmt

/-!
# The generator's assumptions hold of parsed programs

A program that is accepted without a complaint is in scope, and the generator
follows a tree in scope without a panic, finding every loop it leaves and the
saved stack of every `$`.
-/

set_option autoImplicit false

namespace LambdaMoo.CodeGen

def NoPanic {α : Type} (r : Result α) : Prop := ∀ text, r ≠ .error (.panic text)

theorem NoPanic.ok {α : Type} (a : α) : NoPanic (.ok a : Result α) := fun _ h => nomatch h

theorem NoPanic.total {α : Type} {r : Result α} (h : ∃ a, r = .ok a) : NoPanic r := by
  obtain ⟨a, rfl⟩ := h
  exact .ok a

theorem NoPanic.bind {α β : Type} {r : Result α} {f : α → Result β} (hr : NoPanic r)
    (hf : ∀ a, r = .ok a → NoPanic (f a)) : NoPanic (r >>= f) := by
  cases r with
  | error e =>
    intro text h
    cases h
    exact hr text rfl
  | ok a => exact hf a rfl

section
variable {n : ℕ} {s : State} {a : Account} {d m : ℕ} {frames : List Frame}

theorem exprNoPanic (e : Expr) (he : e.scoped n false = true)
    (t : Standing s a d m none frames) : NoPanic (generateExpr e s) :=
  .total (generateExpr_total e he t (by simp))

theorem codesNoPanic (codes : ArgList) (he : codes.scoped n false = true)
    (t : Standing s a d m none frames) : NoPanic (generateCodes codes s) := by
  cases codes with
  | nil => exact .ok _
  | cons kind e next => exact .total (generateArgList_total _ he t (by simp))

theorem handlersNoPanic (arms : ExceptArms) {loops : List (Option ℕ)}
    (ha : arms.scoped n loops = true) {s : State} {a : Account} {d m : ℕ}
    (t : Standing s a d m none frames) :
    NoPanic (pushHandlers arms s) := by
  match arms with
  | .nil => exact .ok _
  | .cons id codes stmt next =>
    simp only [ExceptArms.scoped, Bool.and_eq_true] at ha
    rw [pushHandlers]
    refine (codesNoPanic codes ha.1.1.2 t).bind fun s1 h1 => ?_
    have t1 := generateCodes_stands codes ha.1.1.2 t h1
    have t2 := ((t1.extended .pushLabel).label none).push 1
    exact (handlersNoPanic next ha.2 t2).bind fun _ _ => .ok _

theorem finishVectorNoPanic (t : Standing s a 0 m none frames) : NoPanic (finishVector s) := by
  have hcur : (emitOp .done s).curStack = 0 := t.cur
  have hsaved : (emitOp .done s).savedStack = none := t.savedStack
  rw [finishVector, if_neg (not_not_intro hcur), if_neg (not_not_intro hsaved)]
  refine NoPanic.bind ?_ fun _ _ => .ok _
  intro text h
  rw [layout] at h
  split at h <;> cases h

theorem exitNoPanic {exit : Option ℕ} (t : Standing s a d m none frames)
    (h : exitOk (frames.map (·.id)) exit = true) :
    ∃ i loop, findLoop exit (emitExit exit s).loops = .ok i ∧
      (emitExit exit s).loops[i]? = some loop := by
  have t1 := t.exit exit
  obtain ⟨hids, i, hi, hinner⟩ := t1.atExit h
  refine ⟨i, ?_⟩
  have hlt : i < (emitExit exit s).loops.length := by
    rw [← List.length_map (f := (·.id)), hids]
    cases exit with
    | none =>
      obtain ⟨rfl, hne⟩ := hinner
      exact List.length_pos_iff.mpr hne
    | some id => exact (List.getElem?_eq_some_iff.mp hinner.1).1
  exact ⟨_, hi, List.getElem?_eq_getElem hlt⟩

end

mutual
theorem stmtNoPanic (st : Stmt) {n : ℕ} {s : State} {a : Account} {d m : ℕ} {frames : List Frame}
    (t : Standing s a d m none frames) (hs : st.scoped n (frames.map (·.id)) = true) :
    NoPanic (generateStmt st s) := by
  match st with
  | .cond arms otherwise =>
    simp only [Stmt.scoped, Bool.and_eq_true] at hs
    rw [generateStmt]
    refine (armsNoPanic arms t hs.1).bind fun r h => ?_
    have t1 := generateArms_stands arms t hs.1 h
    exact (stmtsNoPanic otherwise t1 hs.2).bind fun _ _ => .ok _
  | .list id expr body =>
    simp only [Stmt.scoped, Bool.and_eq_true] at hs
    rw [generateStmt]
    refine (exprNoPanic expr hs.1.2 t).bind fun s1 h1 => ?_
    have t1 := (generateExpr_stands expr hs.1.2 t h1).op (optimNumToOpcode 1)
    have t2 := (((t1.push 1).op .forList).varRef id).label none
    exact (stmtsNoPanic body
      (t2.enter (some id) (d+2) d t2.cur (congrArg (·-2) t2.cur)) hs.2).bind fun _ _ => .ok _
  | .range id lo hi body =>
    simp only [Stmt.scoped, Bool.and_eq_true] at hs
    rw [generateStmt]
    refine (exprNoPanic lo hs.1.1.2 t).bind fun s1 h1 => ?_
    have t1 := generateExpr_stands lo hs.1.1.2 t h1
    refine (exprNoPanic hi hs.1.2 t1).bind fun s2 h2 => ?_
    have t2 := (((generateExpr_stands hi hs.1.2 t1 h2).op .forRange).varRef id).label none
    exact (stmtsNoPanic body
      (t2.enter (some id) (d+2) d t2.cur (congrArg (·-2) t2.cur)) hs.2).bind fun _ _ => .ok _
  | .while id condition body =>
    simp only [Stmt.scoped, Bool.and_eq_true] at hs
    rw [generateStmt]
    refine (exprNoPanic condition hs.1.2 t).bind fun s1 h1 => ?_
    have t1 := (generateExpr_stands condition hs.1.2 t h1).loopTest id
    have t2 := (t1.label none).pop 1 d rfl
    exact (stmtsNoPanic body (t2.enter id d d t2.cur t2.cur) hs.2).bind fun _ _ => .ok _
  | .fork id time body =>
    simp only [Stmt.scoped, Bool.and_eq_true] at hs
    rw [generateStmt]
    refine (exprNoPanic time hs.1.2 t).bind fun s1 h1 => ?_
    refine (stmtsNoPanic body (initState_standing _) hs.2).bind fun s2 h2 => ?_
    have t2 := generateStmts_stands body (initState_standing _) hs.2 h2
    exact (finishVectorNoPanic t2).bind fun _ _ => .ok _
  | .expr expr | .return (some expr) =>
    rw [generateStmt]
    exact (exprNoPanic expr hs t).bind fun _ _ => .ok _
  | .return none => exact .ok _
  | .tryExcept body excepts =>
    simp only [Stmt.scoped, Bool.and_eq_true] at hs
    rw [generateStmt]
    refine (handlersNoPanic excepts hs.2 t).bind fun r h => ?_
    have t1 := pushHandlers_stands excepts hs.2 t h
    have t2 := ((t1.extended .tryExcept).byte excepts.length).push 1
    refine (stmtsNoPanic body t2 hs.1).bind fun s2 h2 => ?_
    have t3 := (generateStmts_stands body t2 hs.1 h2).extended .endExcept
    exact (exceptsNoPanic excepts ((t3.label none).pop (2*excepts.length+1) d rfl) hs.2).bind
      fun _ _ => .ok _
  | .tryFinally body handler =>
    simp only [Stmt.scoped, Bool.and_eq_true] at hs
    rw [generateStmt]
    have t1 := ((t.extended .tryFinally).label none).push 1
    refine (stmtsNoPanic body t1 hs.1).bind fun s2 h2 => ?_
    have t2 := ((generateStmts_stands body t1 hs.1 h2).extended .endFinally).pop 1 d rfl
    exact (stmtsNoPanic handler ((t2.define _).push 2) hs.2).bind fun _ _ => .ok _
  | .break exit =>
    obtain ⟨i, loop, hi, hl⟩ := exitNoPanic t hs
    rw [generateStmt, generateBreak]
    refine NoPanic.bind (.total ⟨i, hi⟩) fun j hj => ?_
    obtain rfl : i = j := Except.ok.inj (hi.symm.trans hj)
    rw [hl]
    exact .ok _
  | .continue exit =>
    obtain ⟨i, loop, hi, hl⟩ := exitNoPanic t hs
    rw [generateStmt, generateContinue]
    refine NoPanic.bind (.total ⟨i, hi⟩) fun j hj => ?_
    obtain rfl : i = j := Except.ok.inj (hi.symm.trans hj)
    rw [hl]
    exact .ok _
theorem stmtsNoPanic (ss : Stmts) {n : ℕ} {s : State} {a : Account} {d m : ℕ}
    {frames : List Frame} (t : Standing s a d m none frames)
    (hs : ss.scoped n (frames.map (·.id)) = true) : NoPanic (generateStmts ss s) := by
  match ss with
  | .nil => exact .ok _
  | .cons stmt next =>
    simp only [Stmts.scoped, Bool.and_eq_true] at hs
    rw [generateStmts]
    refine (stmtNoPanic stmt t hs.1).bind fun s1 h1 => ?_
    exact stmtsNoPanic next (generateStmt_stands stmt t hs.1 h1) hs.2
theorem armsNoPanic (arms : CondArms) {n : ℕ} {ifOp : Opcode} {l : Option ℕ} {s : State}
    {a : Account} {d m : ℕ} {frames : List Frame} (t : Standing s a d m none frames)
    (hs : arms.scoped n (frames.map (·.id)) = true) : NoPanic (generateArms arms ifOp l s) := by
  match arms with
  | .nil => exact .ok _
  | .cons condition stmt next =>
    simp only [CondArms.scoped, Bool.and_eq_true] at hs
    rw [generateArms]
    refine (exprNoPanic condition hs.1.1 t).bind fun s1 h1 => ?_
    have t1 := ((generateExpr_stands condition hs.1.1 t h1).op ifOp).label none
    refine (stmtsNoPanic stmt (t1.pop 1 d rfl) hs.1.2).bind fun s2 h2 => ?_
    have t2 := (generateStmts_stands stmt (t1.pop 1 d rfl) hs.1.2 h2).op .jump
    exact armsNoPanic next ((t2.label l).define _) hs.2
theorem exceptsNoPanic (arms : ExceptArms) {n : ℕ} {labels : List ℕ} {l : Option ℕ} {s : State}
    {a : Account} {d m : ℕ} {frames : List Frame} (t : Standing s a d m none frames)
    (hs : arms.scoped n (frames.map (·.id)) = true) :
    NoPanic (generateExcepts arms labels l s) := by
  match arms with
  | .nil => exact .ok _
  | .cons id codes stmt next =>
    simp only [ExceptArms.scoped, Bool.and_eq_true] at hs
    rw [generateExcepts]
    have t1 := ((((t.define labels.head?).push 1).armId id).op .pop).pop 1 d rfl
    refine (stmtsNoPanic stmt t1 hs.1.2).bind fun s2 h2 => ?_
    match next with
    | .nil => exact .ok _
    | .cons id' codes' stmt' next' =>
      have t2 := (generateStmts_stands stmt t1 hs.1.2 h2).op .jump
      exact exceptsNoPanic (.cons id' codes' stmt' next') (t2.label l) hs.2
end

/-- What the checks of the parser promise the generator of a program. -/
structure ScopesKept (ss : Stmts) : Prop where
  /-- Slots stand for names, no two of them the same up to case. -/
  names : ∃ names, Parse.Tidy names ∧ ss.scoped names.length [] = true
  sited : ∀ g, SitedStmts ss [] (initState g)
  noPanic : ∀ g, NoPanic (generateStmts ss (initState g))
  codeNoPanic : NoPanic (generateCode ss)

theorem scopesKept_of_scoped {names : List Str} {ss : Stmts} (hn : Parse.Tidy names)
    (hs : ss.scoped names.length [] = true) : ScopesKept ss := by
  have hstmts (g : GState) : NoPanic (generateStmts ss (initState g)) :=
    stmtsNoPanic ss (initState_standing g) hs
  refine ⟨⟨names, hn, hs⟩, fun g => sitedStmts ss (initState_standing g) hs, hstmts, ?_⟩
  have hcode : NoPanic (stmtToCode ss initGstate) := by
    refine (hstmts initGstate).bind fun s h => ?_
    exact finishVectorNoPanic (generateStmts_stands ss (initState_standing initGstate) hs h)
  exact hcode.bind fun _ _ => .ok _

theorem parsed_scopesKept (x : Parse.Library) (hx : x.Xid) (functions code : List Str)
    (ss : Stmts) (h : Parse.Parses x functions code ss) : ScopesKept ss := by
  obtain ⟨names, hn, hs⟩ := h.scoped hx
  exact scopesKept_of_scoped hn hs

section
open Parse Grammar DbIo

/-- A loop over the last of some lists that is left by its name. -/
def exitCode : List Str := [ascii "for i in (x[$]) break i; endfor"]

def exitTree : Stmts :=
  .cons (.list 19 (.index (.id 18) .length) (.cons (.break (some 19)) .nil)) .nil

def wordToken (k : Kind) : Token := ⟨k, .none⟩

def nameToken (name : Str) : Token := ⟨.tId, .string name⟩

def exitBody : List Token :=
  [wordToken .tBreak, nameToken [105], chrToken ';', wordToken .tEndfor]

def exitTokens : List Token :=
  wordToken .tFor::nameToken [105]::wordToken .tIn::chrToken '('::nameToken [120]::chrToken '['::
    chrToken '$'::chrToken ']'::chrToken ')'::exitBody

/-- The state of the parse once `names` have been added, inside the loops `loops`. -/
def exitState (names : List Str) (dollars : ℤ) (loops : List LoopEntry) : PState :=
  ⟨builtinNames currentVersion ++ names, dollars, loops, []⟩

theorem exitBody_derives (left : List Val) :
    Derives (rules asciiLibrary []) left [n .statements, t .tEndfor]
      (exitState [[120]] 0 [⟨some [105], false⟩]) exitBody
      [.stmts (.cons (.break (some 19)) .nil), .none]
      (exitState [[120], [105]] 0 [⟨some [105], false⟩]) [] := by
  have hexit : Derives (rules asciiLibrary []) [.stmts .nil] [n .statement]
      (exitState [[120]] 0 [⟨some [105], false⟩]) exitBody
      [.stmts (.cons (.break (some 19)) .nil)]
      (exitState [[120], [105]] 0 [⟨some [105], false⟩]) [wordToken .tEndfor] :=
    Derives.node (G := rules asciiLibrary []) Rule.breakId
      (.token (wordToken .tBreak) (.token (nameToken [105]) (.token (chrToken ';') .nil))) rfl .nil
  exact Derives.node (G := rules asciiLibrary []) Rule.moreStatements
    (Derives.node (G := rules asciiLibrary []) Rule.noStatements .nil rfl hexit) rfl
    (.token (wordToken .tEndfor) .nil)

theorem exitIndex_derives (i : List Token) :
    Derives (rules asciiLibrary []) [] (Rule.rhs .index) (exitState [] 0 [])
      (nameToken [120]::chrToken '['::chrToken '$'::chrToken ']'::i)
      [.expr (.id 18), .none, .none, .expr .length, .none] (exitState [[120]] 1 []) i :=
  Derives.node (G := rules asciiLibrary []) Rule.id (.token (nameToken [120]) .nil) rfl
    (.token (chrToken '[') (Derives.node (G := rules asciiLibrary []) Rule.dollarsUp .nil rfl
      (Derives.node (G := rules asciiLibrary []) Rule.dollar (.token (chrToken '$') .nil) rfl
        (.token (chrToken ']') .nil))))

theorem exitCode_derives : Derives (rules asciiLibrary []) [] [n .program]
    (startParse currentVersion) exitTokens [.stmts exitTree]
    (exitState [[120], [105]] 0 []) [] := by
  have hfor : Derives (rules asciiLibrary []) [] (Rule.rhs .forList) (exitState [] 0 []) exitTokens
      [.none, .string [105], .none, .none, .expr (.index (.id 18) .length), .none, .none,
        .stmts (.cons (.break (some 19)) .nil), .none]
      (exitState [[120], [105]] 0 [⟨some [105], false⟩]) [] :=
    .token (wordToken .tFor) (.token (nameToken [105]) (.token (wordToken .tIn)
      (.token (chrToken '(') (Derives.node (G := rules asciiLibrary []) Rule.index (exitIndex_derives _) rfl
        (.token (chrToken ')') (Derives.node (G := rules asciiLibrary []) Rule.pushForList .nil rfl
          (exitBody_derives _)))))))
  have hno : Derives (rules asciiLibrary []) [] [n .statements] (exitState [] 0 []) exitTokens
      [.stmts .nil] (exitState [] 0 []) exitTokens :=
    Derives.node (G := rules asciiLibrary []) Rule.noStatements .nil rfl .nil
  have hone : Derives (rules asciiLibrary []) [.stmts .nil] [n .statement] (exitState [] 0 [])
      exitTokens [.stmts exitTree] (exitState [[120], [105]] 0 []) [] :=
    Derives.node (G := rules asciiLibrary []) Rule.forList hfor rfl .nil
  have hall : Derives (rules asciiLibrary []) [] [n .statements] (exitState [] 0 []) exitTokens
      [.stmts exitTree] (exitState [[120], [105]] 0 []) [] :=
    Derives.node (G := rules asciiLibrary []) Rule.moreStatements (hno.append hone) rfl .nil
  exact Derives.node (G := rules asciiLibrary []) Rule.program hall rfl .nil

theorem exitCode_parses : Parses asciiLibrary [] exitCode exitTree := by
  have htokens : (tokens asciiLibrary currentVersion (startLexer exitCode)).1 = exitTokens := by
    decide +kernel
  have herrors : (tokens asciiLibrary currentVersion (startLexer exitCode)).2.errors = [] := by
    decide +kernel
  exact ⟨herrors, _, htokens ▸ exitCode_derives, rfl⟩

theorem asciiLibrary_xid : asciiLibrary.Xid := by
  constructor
  · intro ch h
    have : 65 ≤ ch ∧ ch ≤ 90 ∨ 97 ≤ ch ∧ ch ≤ 122 := of_decide_eq_true h
    omega
  · intro ch h
    have : (65 ≤ ch ∧ ch ≤ 90 ∨ 97 ≤ ch ∧ ch ≤ 122) ∨ 48 ≤ ch ∧ ch ≤ 57 ∨ ch = 95 :=
      of_decide_eq_true h
    omega

theorem parsed_scopesKept_exit :
    asciiLibrary.Xid ∧ Parses asciiLibrary [] exitCode exitTree ∧ ScopesKept exitTree :=
  ⟨asciiLibrary_xid, exitCode_parses,
    parsed_scopesKept asciiLibrary asciiLibrary_xid [] exitCode exitTree exitCode_parses⟩

end

end LambdaMoo.CodeGen
