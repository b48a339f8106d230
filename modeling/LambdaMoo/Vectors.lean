import LambdaMoo.Layout

/-!
# Vectors

The code of a vector starts with an opcode and all its labels are defined, so
a finished vector whose operands fit is the code of its statement list.
-/

set_option autoImplicit false

namespace LambdaMoo.CodeGen

/-- Items that are empty or start with a byte. -/
def Led (items : List Item) : Prop := ∀ i, items.head? = some i → ∃ n, i = .byte n

def Leads (items : List Item) : Prop := ∃ n rest, items = .byte n::rest

theorem Leads.append {a : List Item} (ha : Leads a) (b : List Item) : Leads (a++b) := by
  obtain ⟨n, rest, rfl⟩ := ha
  exact ⟨n, rest++b, rfl⟩

theorem Leads.led {a : List Item} (ha : Leads a) : Led a := by
  obtain ⟨n, rest, rfl⟩ := ha
  intro i hi
  exact ⟨n, (Option.some.inj hi).symm⟩

theorem Led.leads {a b : List Item} (ha : Led a) (hb : Leads b) : Leads (a++b) := by
  cases a with
  | nil => exact hb
  | cons i rest =>
    obtain ⟨n, rfl⟩ := ha i rfl
    exact ⟨n, rest++b, rfl⟩

theorem Led.append {a b : List Item} (ha : Led a) (hb : Led b) : Led (a++b) := by
  cases a with
  | nil => exact hb
  | cons i rest => exact ha

theorem Led.nil : Led [] := fun _ h => by cases h

theorem leads_byte (n : ℕ) (rest : List Item) : Leads (.byte n::rest) := ⟨n, rest, rfl⟩

theorem varOpItems_leads (isPut : Bool) (slot : ℕ) : Leads (varOpItems isPut slot) := by
  unfold varOpItems
  split
  · exact leads_byte _ _
  · exact leads_byte _ _

theorem varItems_leads (v : Var) : Leads (varItems v) := by
  unfold varItems
  split
  · split
    · exact leads_byte _ _
    · exact leads_byte _ _
  · exact leads_byte _ _

theorem eitherItems_leads (o : Opcode ⊕ ExtendedOpcode) : Leads (eitherItems o) := by
  cases o with
  | inl o => exact leads_byte _ _
  | inr eop => exact leads_byte _ _

theorem extendedItems_leads (eop : ExtendedOpcode) : Leads (extendedItems eop) := leads_byte _ _

theorem led_ite (b : Bool) {a : List Item} (ha : Leads a) : Led (if b then a else []) := by
  cases b with
  | true => exact ha.led
  | false => exact Led.nil

theorem storeItems_led (e : Expr) : Led (storeItems e) := by
  cases e with
  | range base lo hi => exact ((extendedItems_leads _).append _).led
  | index base index => exact (leads_byte _ _).led
  | id slot => exact (varOpItems_leads true slot).led
  | prop obj name => exact (leads_byte _ _).led
  | _ => exact Led.nil

mutual
theorem itemsExpr_led (d : ℕ) (saved : Option ℕ) (e : Expr) : Led (itemsExpr d saved e) := by
  match e with
  | .var v => exact (varItems_leads v).led
  | .id slot => exact (varOpItems_leads false slot).led
  | .and lhs rhs | .or lhs rhs =>
    exact (((itemsExpr_led d saved lhs).leads (leads_byte _ _)).append _).led
  | .unary op arg => exact ((itemsExpr_led d saved arg).leads (eitherItems_leads _)).led
  | .binary op lhs rhs =>
    exact (((itemsExpr_led d saved lhs).append (itemsExpr_led (d+1) saved rhs)).leads
      (eitherItems_leads _)).led
  | .prop obj name =>
    exact (((itemsExpr_led d saved obj).append (itemsExpr_led (d+1) saved name)).leads
      (leads_byte _ _)).led
  | .index base index =>
    exact (((itemsExpr_led d saved base).append (itemsExpr_led (d+1) (some d) index)).leads
      (leads_byte _ _)).led
  | .range base lo hi =>
    exact ((((itemsExpr_led d saved base).append (itemsExpr_led (d+1) (some d) lo)).append
      (itemsExpr_led (d+2) (some d) hi)).leads (leads_byte _ _)).led
  | .length => exact ((extendedItems_leads _).append _).led
  | .list args => exact itemsArgList_led d saved args
  | .call func args => exact ((itemsArgList_led d saved args).leads (leads_byte _ _)).led
  | .verb obj name args =>
    exact ((((itemsExpr_led d saved obj).append (itemsExpr_led (d+1) saved name)).append
      (itemsArgList_led (d+2) saved args)).leads (leads_byte _ _)).led
  | .cond condition consequent alternate =>
    exact (((((itemsExpr_led d saved condition).leads (leads_byte _ _)).append _).append _).append
      _).led
  | .asgn (.scatter sc) rhs =>
    exact ((((((itemsExpr_led d saved rhs).leads (extendedItems_leads _)).append _).append _).append
      _).append _).led
  | .asgn (.id _) rhs | .asgn (.prop _ _) rhs | .asgn (.index _ _) rhs | .asgn (.range _ _ _) rhs
  | .asgn (.var _) rhs | .asgn (.verb _ _ _) rhs | .asgn (.asgn _ _) rhs | .asgn (.call _ _) rhs
  | .asgn (.binary _ _ _) rhs | .asgn (.and _ _) rhs | .asgn (.or _ _) rhs | .asgn (.unary _ _) rhs
  | .asgn (.list _) rhs | .asgn (.cond _ _ _) rhs | .asgn (.catch _ _ _) rhs | .asgn .length rhs =>
    rw [itemsExpr_asgn _ rhs (by simp)]
    exact ((((itemsLvalue_led d saved _ false).append (itemsExpr_led _ saved rhs)).append
      (led_ite _ (leads_byte _ _))).append (storeItems_led _)).append (led_ite _ (leads_byte _ _))
  | .catch body codes default =>
    have hc : Led (codesOrItems codes (itemsArgList d saved codes)) := by
      match codes with
      | .nil => exact (leads_byte _ _).led
      | .cons kind expr next => exact itemsArgList_led d saved (.cons kind expr next)
    exact (((((((hc.leads (extendedItems_leads _)).append _).append _).append _).append _).append
      _).append _).led
  | .scatter _ => exact Led.nil
theorem itemsArgList_led (d : ℕ) (saved : Option ℕ) (args : ArgList) :
    Led (itemsArgList d saved args) := by
  match args with
  | .nil => exact (leads_byte _ _).led
  | .cons kind expr next =>
    exact (((itemsExpr_led d saved expr).leads (leads_byte _ _)).append _).led
theorem itemsLvalue_led (d : ℕ) (saved : Option ℕ) (e : Expr) (above : Bool) :
    Led (itemsLvalue d saved e above) := by
  match e with
  | .range base lo hi =>
    exact ((itemsLvalue_led d saved base true).append (itemsExpr_led _ _ lo)).append
      (itemsExpr_led _ _ hi)
  | .index base index =>
    exact ((itemsLvalue_led d saved base true).append (itemsExpr_led _ _ index)).append
      (led_ite _ (leads_byte _ _))
  | .id slot => exact led_ite _ (varOpItems_leads false slot)
  | .prop obj name =>
    exact ((itemsExpr_led d saved obj).append (itemsExpr_led _ saved name)).append
      (led_ite _ (leads_byte _ _))
  | .var _ | .verb _ _ _ | .asgn _ _ | .call _ _ | .binary _ _ _ | .and _ _ | .or _ _
  | .unary _ _ | .list _ | .cond _ _ _ | .catch _ _ _ | .length | .scatter _ => exact Led.nil
end

theorem handlerItems_led (d : ℕ) (arms : ExceptArms) : Led (handlerItems d arms) := by
  cases arms with
  | nil => exact Led.nil
  | cons id codes stmt next =>
    have hc : Led (codesOrItems codes (itemsArgList d none codes)) := by
      cases codes with
      | nil => exact (leads_byte _ _).led
      | cons kind expr next => exact itemsArgList_led d none (.cons kind expr next)
    exact (((hc.leads (extendedItems_leads _)).append _).append _).led

mutual
theorem itemsStmt_led (d : ℕ) (frames : List Frame) (st : Stmt) : Led (itemsStmt d frames st) := by
  match st with
  | .cond arms otherwise =>
    exact (itemsArms_led d frames .if arms).append (itemsStmts_led d frames otherwise)
  | .list id expr body =>
    exact ((((itemsExpr_led d none expr).leads (leads_byte _ _)).append _).append _).led
  | .range id lo hi body =>
    exact (((((itemsExpr_led d none lo).append (itemsExpr_led _ none hi)).leads
      (leads_byte _ _)).append _).append _).led
  | .while id condition body =>
    have ht : Leads (loopTestItems id) := by
      cases id with
      | none => exact leads_byte _ _
      | some id => exact (extendedItems_leads _).append _
    exact (((((itemsExpr_led d none condition).leads ht).append _).append _).append _).led
  | .fork id time body =>
    exact (((((itemsExpr_led d none time).leads (leads_byte _ _)).append _).append _).append _).led
  | .expr expr | .return (some expr) =>
    exact ((itemsExpr_led d none expr).leads (leads_byte _ _)).led
  | .return none => exact (leads_byte _ _).led
  | .tryExcept body excepts =>
    exact ((((((handlerItems_led d excepts).leads (extendedItems_leads _)).append _).append _).append
      _).append _ |>.append _).led
  | .tryFinally body handler =>
    exact ((((((extendedItems_leads _).append _).append _).append _).append _).append _).led
  | .break exit | .continue exit =>
    have hx : Leads (exitItems exit) := by
      cases exit with
      | none => exact extendedItems_leads _
      | some id => exact (extendedItems_leads _).append _
    exact (hx.append _).led
theorem itemsStmts_led (d : ℕ) (frames : List Frame) (ss : Stmts) :
    Led (itemsStmts d frames ss) := by
  match ss with
  | .nil => exact Led.nil
  | .cons stmt next => exact (itemsStmt_led d frames stmt).append (itemsStmts_led d frames next)
theorem itemsArms_led (d : ℕ) (frames : List Frame) (o : Opcode) (arms : CondArms) :
    Led (itemsArms d frames o arms) := by
  match arms with
  | .nil => exact Led.nil
  | .cons condition stmt next =>
    exact (((((itemsExpr_led d none condition).leads (leads_byte _ _)).append _).append _).append
      _).led
end

theorem emit_entries (a : Account) (i : Item) : a.entries <+: (a.emit i).entries := by
  cases i <;> simp [Account.emit]

theorem emits_entries (a : Account) (items : List Item) :
    a.entries <+: (a.emits items).entries := by
  induction items generalizing a with
  | nil => exact List.prefix_rfl
  | cons i items ih => exact (emit_entries a i).trans (ih _)

/-- What the generator has made of a statement list is complete. -/
theorem generateStmts_complete {ss : Stmts} {g : GState} {s : State} (hs : ss.accepts [] = true)
    (h : generateStmts ss (initState g) = .ok s) : Complete s := by
  have t := generateStmts_standing ss (initState_standing g) hs h
  obtain ⟨P, X, -⟩ := generateStmts_placed (T := ⟨[], []⟩) ss (initState_standing g) hs
    initState_counted (initState_pending g) h
  refine ⟨X.counted, fun p l hp => ?_, fun c hc => ?_⟩
  · rcases X.labels p l (.inl (Nat.zero_le p)) hp with h | h | h
    · cases h
    · obtain ⟨i, hi⟩ := Option.ne_none_iff_exists'.mp h
      have hlt := X.pending.lt p i hi
      have hlen : s.loops.length = 0 := by simpa [initState] using congrArg List.length X.loops
      omega
    · exact h
  · have hled := itemsStmts_led 0 [] ss
    have hacc : s.code.map Cell.entry = ((initState g).account.emits (itemsStmts 0 [] ss)).entries :=
      congrArg Account.entries t.account
    have hc' : (s.code.map Cell.entry)[0]? = some c.entry := by rw [List.getElem?_map, hc]; rfl
    rw [hacc] at hc'
    cases hi : itemsStmts 0 [] ss with
    | nil => simp [hi, State.account, initState] at hc'
    | cons i rest =>
      obtain ⟨n, rfl⟩ := hled i (by rw [hi]; rfl)
      have hpre := emits_entries ((initState g).account.emit (.byte n)) rest
      rw [hi, Account.emits_cons] at hc'
      have h0 := prefix_get hpre (i := 0) (x := .byte n) rfl
      rw [hc', Option.some.injEq] at h0
      cases c with
      | byte n d => exact ⟨n, d, rfl⟩
      | operand kind value => cases h0
      | label l => cases h0

theorem stmtToCode_ok {ss : Stmts} {g g' : GState} {v : Finished}
    (h : stmtToCode ss g = .ok (v, g')) :
    ∃ s, generateStmts ss (initState g) = .ok s ∧ layout (emitOp .done s) = .ok v.bc ∧
      v.code = (emitOp .done s).code ∧ g' = s.gstate := by
  simp only [stmtToCode, bind_ok] at h
  obtain ⟨s, hs, h⟩ := h
  refine ⟨s, hs, ?_⟩
  simp only [finishVector] at h
  split at h
  · cases h
  · split at h
    · cases h
    · simp only [bind_ok, pure_ok, Prod.mk.injEq] at h
      obtain ⟨bc, hbc, rfl, rfl⟩ := h
      exact ⟨hbc, rfl, rfl⟩

/-- A finished vector whose operands fit is the code of its statement list. -/
theorem stmtToCode_vector {T : Tables} {ss : Stmts} {g g' : GState} {v : Finished}
    (hs : ss.accepts [] = true) (h : stmtToCode ss g = .ok (v, g'))
    (hlit : g'.literals <+: T.literals) (hforks : g'.forkVectors <+: T.forkVectors)
    (hf : Fits v) : CodeVector T v.vec ss := by
  obtain ⟨s, hgen, hlay, hcode, rfl⟩ := stmtToCode_ok h
  have hcomp := generateStmts_complete hs hgen
  have hl := laid_done hcomp hlay hcode hf
  have t := generateStmts_standing ss (initState_standing g) hs hgen
  obtain ⟨P, X, hC⟩ := generateStmts_placed (T := T) ss (initState_standing g) hs
    initState_counted (initState_pending g) hgen
  have hnone : ∀ p, P p = none := by
    intro p
    by_contra hp
    obtain ⟨i, hi⟩ := Option.ne_none_iff_exists'.mp hp
    have hlt := X.pending.lt p i hi
    have hlen : s.loops.length = 0 := by simpa [initState] using congrArg List.length X.loops
    omega
  have happ : v.code = s.code++[.byte Opcode.done.toNat s.curStack] := hcode
  have hA : Agrees T v.code (fun p => (P p).map id) (initState g).numBytes s.numBytes s := by
    refine ⟨fun p _ hp _ => ?_, fun p q _ _ hq => ?_, ?_, hlit, hforks⟩
    · rw [happ, List.getElem?_append_left hp]
    · simp [hnone p] at hq
    · rw [happ, List.map_append]
      exact List.prefix_append _ _
  have c : CodeStmts T v.vec 0 [] ss (offset v.bc v.code (initState g).numBytes)
      (offset v.bc v.code s.numBytes) := hC v.vec (offset v.bc v.code) v.code id hl hA
  have hz : offset v.bc v.code (initState g).numBytes = 0 := by
    simp [offset, initState, State.numBytes]
  rw [hz] at c
  have hget : v.code[s.numBytes]? = some (.byte Opcode.done.toNat s.curStack) := by
    simp [happ, State.numBytes]
  have hdone := hl.op (i := .done) hget fun _ => rfl
  have hcount : (emitOp .done s).num = tally (emitOp .done s).entries :=
    ((Grows.refl s hcomp.counted).op .done).counted
  obtain ⟨hbc, hno⟩ := layout_ok hcount hlay
  have hsize : offset v.bc v.code (s.numBytes+1) = v.bc.size := by
    have h1 := offset_length (emitOp .done s)
    rw [(written_eq_size_iff _ hcount).mpr hno, emitOp_numBytes] at h1
    rw [hcode, hbc]
    exact h1
  exact ⟨_, c, t.cur ▸ hsize ▸ hdone⟩

end LambdaMoo.CodeGen
