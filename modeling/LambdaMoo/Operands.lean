import LambdaMoo.Evaluate

/-!
# Values that are no markers

The markers of handlers are on the operand stack with the operands. No
operator and no assignment makes one, or a list that holds one, of values that
are none and hold none.
-/

set_option autoImplicit false

namespace LambdaMoo.Run
open LambdaMoo.Execute LambdaMoo.CodeGen LambdaMoo.Numbers

mutual
def unmarked : Var → Prop
  | .catch _ | .finally _ => False
  | .list l => unmarkedList l
  | _ => True
def unmarkedList : List Var → Prop
  | [] => True
  | v::vs => unmarked v ∧ unmarkedList vs
end

theorem unmarkedList_iff {l : List Var} : unmarkedList l ↔ ∀ v ∈ l, unmarked v := by
  induction l with
  | nil => simp [unmarkedList]
  | cons v vs ih => simp [unmarkedList, ih]

theorem unmarked_list {l : List Var} : unmarked (.list l) ↔ ∀ v ∈ l, unmarked v := by
  rw [unmarked, unmarkedList_iff]

theorem unmarked_type {v : Var} (h : unmarked v) : v.type ≠ .catch ∧ v.type ≠ .finally := by
  cases v with
  | «catch» _ | «finally» _ => exact h.elim
  | _ => exact ⟨by simp [Var.type], by simp [Var.type]⟩

/-- What a computation gives is no marker, be it a value or the code of an error. -/
def Given (r : Except Err Var) : Prop := ∀ v, r = .ok v → unmarked v

theorem Given.err (e : Err) : Given (.error e) := by
  intro v hv
  cases hv

theorem Given.ok {v : Var} (h : unmarked v) : Given (.ok v) := by
  intro w hw
  rwa [← Except.ok.inj hw]

theorem given_answer {v : Var} (h : unmarked v) : Given (answer v) := by
  cases v with
  | err e => exact .err e
  | _ => exact .ok h

theorem unmarked_bitwise (op : Num → Num → Num) (v w : Var) : unmarked (bitwise op v w) := by
  unfold bitwise
  split <;> trivial

theorem unmarked_runShift {op : ShiftOp} {v w r : Var} (h : runShift op v w = .ok r) :
    unmarked r := by
  unfold runShift at h
  split at h
  · split at h
    · rw [← Except.ok.inj h]
      trivial
    · obtain ⟨n, -, h⟩ := bind_ok.mp h
      rw [← pure_ok.mp h]
      trivial
  · rw [← Except.ok.inj h]
    trivial

theorem unmarked_arithmetic {op : Var → Var → Result Var} {v w r : Var}
    (hop : ∀ r, op v w = .ok r → unmarked r) (h : arithmetic op v w = .ok r) : unmarked r := by
  unfold arithmetic at h
  split at h
  · exact hop r h
  · rw [← pure_ok.mp h]
    trivial

section Operators
variable [FloatOps]

theorem unmarked_simpleBinary (iop : Num → Num → Num) (fop : Fnum → Fnum → Fnum) (v w : Var) :
    unmarked (simpleBinary iop fop v w) := by
  unfold simpleBinary
  split
  · trivial
  · split <;> trivial
  · trivial

theorem unmarked_compared (holds : ℤ → Bool) (v w : Var) : unmarked (compared holds v w) := by
  unfold compared
  split <;> trivial

theorem unmarked_power {v w r : Var} (h : doPower v w = .ok r) : unmarked r := by
  have hfloat : ∀ x y, unmarked (powerFloat x y) := by
    intro x y
    unfold powerFloat
    split
    · split <;> trivial
    · trivial
  unfold doPower at h
  split at h
  · unfold powerInt at h
    split at h
    · split at h
      · rw [← Except.ok.inj h]
        trivial
      · split at h
        · rw [← Except.ok.inj h]
          trivial
        · split at h <;> (rw [← Except.ok.inj h]; trivial)
    · obtain ⟨n, -, h⟩ := bind_ok.mp h
      rw [← pure_ok.mp h]
      trivial
  · rw [← Except.ok.inj h]
    exact hfloat _ _
  · rw [← Except.ok.inj h]
    exact hfloat _ _
  · rw [← Except.ok.inj h]
    trivial

theorem unmarked_division {iop : ℤ → ℤ → ℤ} {fop : Fnum → Fnum → Fnum} {v w r : Var}
    (h : divisionOp iop fop v w = .ok r) : unmarked r := by
  unfold divisionOp at h
  split at h
  · split at h
    · rw [← Except.ok.inj h]
      trivial
    · unfold quotient at h
      split at h
      · cases h
      · rw [← Except.ok.inj h]
        trivial
  · rw [← Except.ok.inj h]
    unfold floatQuotient
    split
    · trivial
    · split <;> trivial
  · split at h <;> (rw [← Except.ok.inj h]; trivial)

theorem unmarked_binaryOp {op : BinaryOp} {v w r : Var} (h : binaryOp op v w = .ok r) :
    unmarked r := by
  have simple : ∀ (iop : Num → Num → Num) (fop : Fnum → Fnum → Fnum) (r : Var),
      (pure (simpleBinary iop fop v w) : Result Var) = .ok r → unmarked r := by
    intro iop fop r hr
    rw [← pure_ok.mp hr]
    exact unmarked_simpleBinary _ _ _ _
  unfold binaryOp at h
  split at h
  · rw [← pure_ok.mp h]
    trivial
  · exact unmarked_arithmetic (simple _ _) h
  · exact unmarked_arithmetic (simple _ _) h
  · exact unmarked_arithmetic (simple _ _) h
  · exact unmarked_arithmetic (fun r hr => unmarked_division hr) h
  · exact unmarked_arithmetic (fun r hr => unmarked_division hr) h
  · exact unmarked_power h
  · rw [← pure_ok.mp h]
    trivial
  · rw [← pure_ok.mp h]
    trivial
  · rw [← pure_ok.mp h]
    exact unmarked_compared _ _ _
  · rw [← pure_ok.mp h]
    exact unmarked_compared _ _ _
  · rw [← pure_ok.mp h]
    exact unmarked_compared _ _ _
  · rw [← pure_ok.mp h]
    exact unmarked_compared _ _ _
  · rw [← pure_ok.mp h]
    trivial
  · rw [← pure_ok.mp h]
    trivial
  · rw [← pure_ok.mp h]
    exact unmarked_bitwise _ _ _
  · rw [← pure_ok.mp h]
    exact unmarked_bitwise _ _ _
  · rw [← pure_ok.mp h]
    exact unmarked_bitwise _ _ _
  · exact unmarked_runShift h
  · exact unmarked_runShift h
  · exact unmarked_runShift h

theorem unmarked_unaryOp (op : UnaryOp) (v : Var) : unmarked (unaryOp op v) := by
  unfold unaryOp
  split <;> trivial

end Operators

section Parts

theorem unmarked_copy {l r : List Var} {start count : ℤ} (hl : ∀ v ∈ l, unmarked v)
    (h : copyElements l start count = .ok r) : ∀ v ∈ r, unmarked v := by
  unfold copyElements at h
  split at h
  · rw [← pure_ok.mp h]
    intro v hv
    cases hv
  · split at h
    · rw [← pure_ok.mp h]
      intro v hv
      exact hl v (List.mem_of_mem_drop (List.mem_of_mem_take hv))
    · cases h

theorem unmarked_sublist {l r : List Var} {lo hi : ℤ} (hl : ∀ v ∈ l, unmarked v)
    (h : sublist l lo hi = .ok r) : ∀ v ∈ r, unmarked v := by
  unfold sublist at h
  split at h
  · rw [← pure_ok.mp h]
    intro v hv
    cases hv
  · split at h
    · cases h
    · exact unmarked_copy hl h

theorem given_element {l : List Var} {i : ℕ} (hl : ∀ v ∈ l, unmarked v) {r : Except Err Var}
    (h : (match l[i]? with
      | some v => return .ok v
      | none => .error (.undefined "element of a list") : Result (Except Err Var)) = .ok r) :
    Given r := by
  split at h
  · next v hv =>
    rw [← pure_ok.mp h]
    exact .ok (hl v (List.mem_of_getElem? hv))
  · cases h

theorem given_ref {base index : Var} (hb : unmarked base) {r : Except Err Var}
    (h : opRef (fun _ _ => return .error .type) base index = .ok r) : Given r := by
  unfold opRef at h
  split at h
  · rw [← pure_ok.mp h]
    exact .err _
  · split at h
    · rw [← pure_ok.mp h]
      exact .err _
    · exact given_element (unmarked_list.mp hb) h
  · obtain ⟨n, -, h⟩ := bind_ok.mp h
    split at h
    · rw [← pure_ok.mp h]
      exact .err _
    · obtain ⟨s, -, h⟩ := bind_ok.mp h
      rw [← pure_ok.mp h]
      exact .ok trivial
  · rw [← pure_ok.mp h]
    exact .err _

theorem given_pushRef {base index : Var} (hb : unmarked base) {r : Except Err Var}
    (h : opPushRef base index = .ok r) : Given r := by
  unfold opPushRef at h
  split at h
  · split at h
    · rw [← pure_ok.mp h]
      exact .err _
    · exact given_element (unmarked_list.mp hb) h
  · rw [← pure_ok.mp h]
    exact .err _

theorem given_rangeRef {base lo hi : Var} (hb : unmarked base) {r : Except Err Var}
    (h : opRangeRef base lo hi = .ok r) : Given r := by
  unfold opRangeRef at h
  split at h
  · split at h
    · rw [← pure_ok.mp h]
      exact .err _
    · obtain ⟨l, hl, h⟩ := bind_ok.mp h
      rw [← pure_ok.mp h]
      exact .ok (unmarked_list.mpr (unmarked_sublist (unmarked_list.mp hb) hl))
  · obtain ⟨n, -, h⟩ := bind_ok.mp h
    split at h
    · rw [← pure_ok.mp h]
      exact .err _
    · obtain ⟨s, -, h⟩ := bind_ok.mp h
      rw [← pure_ok.mp h]
      exact .ok trivial
  · rw [← pure_ok.mp h]
    exact .err _

theorem given_indexset {base index value : Var} (hb : unmarked base) (hv : unmarked value)
    {r : Except Err Var} (h : opIndexset (fun _ _ => return .error .type) base index value = .ok r) :
    Given r := by
  unfold opIndexset at h
  split at h
  · rw [← pure_ok.mp h]
    exact .err _
  · split at h
    · rw [← pure_ok.mp h]
      exact .err _
    · obtain ⟨l, hl, h⟩ := bind_ok.mp h
      rw [← pure_ok.mp h]
      refine .ok (unmarked_list.mpr fun v hvm => ?_)
      unfold listset at hl
      split at hl
      · rw [← pure_ok.mp hl] at hvm
        rcases List.mem_or_eq_of_mem_set hvm with hm | rfl
        · exact unmarked_list.mp hb v hm
        · exact hv
      · cases hl
  · obtain ⟨n, -, h⟩ := bind_ok.mp h
    split at h
    · rw [← pure_ok.mp h]
      exact .err _
    · obtain ⟨k, -, h⟩ := bind_ok.mp h
      split at h
      · rw [← pure_ok.mp h]
        exact .err _
      · obtain ⟨s, -, h⟩ := bind_ok.mp h
        rw [← pure_ok.mp h]
        exact .ok trivial
  · rw [← pure_ok.mp h]
    exact .err _

theorem given_rangeset {base lo hi value : Var} (hb : unmarked base) (hv : unmarked value)
    {r : Except Err Var} (h : rangeset base lo hi value = .ok r) : Given r := by
  unfold rangeset at h
  split at h
  · split at h
    · rw [← pure_ok.mp h]
      exact .err _
    · obtain ⟨l, hl, h⟩ := bind_ok.mp h
      rw [← pure_ok.mp h]
      unfold listrangeset at hl
      obtain ⟨left, h1, hl⟩ := bind_ok.mp hl
      obtain ⟨right, h2, hl⟩ := bind_ok.mp hl
      rw [← pure_ok.mp hl]
      refine .ok (unmarked_list.mpr fun v hvm => ?_)
      rcases List.mem_append.mp hvm with hvm | hvm
      · rcases List.mem_append.mp hvm with hvm | hvm
        · exact unmarked_copy (unmarked_list.mp hb) h1 v hvm
        · exact unmarked_list.mp hv v hvm
      · exact unmarked_copy (unmarked_list.mp hb) h2 v hvm
  · split at h
    · rw [← pure_ok.mp h]
      exact .err _
    · obtain ⟨s, -, h⟩ := bind_ok.mp h
      rw [← pure_ok.mp h]
      exact .ok trivial
  · rw [← pure_ok.mp h]
    exact .err _

theorem given_length {v : Var} {r : Except Err Var} (h : bfLength v = .ok r) : Given r := by
  unfold bfLength at h
  split at h
  · rw [← pure_ok.mp h]
    exact .ok trivial
  · obtain ⟨n, -, h⟩ := bind_ok.mp h
    rw [← pure_ok.mp h]
    exact .ok trivial
  · rw [← pure_ok.mp h]
    exact .err _

theorem given_firstList (kind : ArgKind) {v : Var} (hv : unmarked v) : Given (firstList kind v) := by
  unfold firstList
  split
  · exact .ok (unmarked_list.mpr fun w hw => by rwa [List.mem_singleton.mp hw])
  · exact .ok hv
  · exact .err _

theorem given_nextList (kind : ArgKind) {l v : Var} (hl : unmarked l) (hv : unmarked v) :
    Given (nextList kind l v) := by
  unfold nextList
  split
  · refine .ok (unmarked_list.mpr fun w hw => ?_)
    rcases List.mem_append.mp hw with hw | hw
    · exact unmarked_list.mp hl w hw
    · rwa [List.mem_singleton.mp hw]
  · refine .ok (unmarked_list.mpr fun w hw => ?_)
    rcases List.mem_append.mp hw with hw | hw
    · exact unmarked_list.mp hl w hw
    · exact unmarked_list.mp hv w hw
  · exact .err _

end Parts

/-! ## Calls and frames -/

section Calls
variable {σ : Type}

/-- A call answers with no marker. -/
def Answers (k : Call σ) : Prop :=
  ∀ w r w', k w = .ok (r, w') → (∀ v, r = .ok v → unmarked v) ∧ ∀ c, r = .error c → unmarked c

theorem answers_still {r : Result (Except Err Var)} (h : ∀ x, r = .ok x → Given x) :
    Answers (still r : Call σ) := by
  intro w x w' hx
  unfold still at hx
  obtain ⟨y, hy, hx⟩ := bind_ok.mp hx
  cases y with
  | ok v =>
    obtain ⟨rfl, -⟩ := Prod.mk.inj (pure_ok.mp hx)
    refine ⟨fun u hu => ?_, fun c hc => ?_⟩
    · exact h _ hy u (by rw [← Except.ok.inj hu])
    · cases hc
  | error e =>
    obtain ⟨rfl, -⟩ := Prod.mk.inj (pure_ok.mp hx)
    refine ⟨fun u hu => ?_, fun c hc => ?_⟩
    · cases hu
    · rw [← Except.error.inj hc]
      trivial

theorem answers_given {r : Except Err Var} (h : Given r) : Answers (given r : Call σ) :=
  answers_still fun x hx => by rwa [← Except.ok.inj hx]

/-- The rest of the server makes no markers. -/
structure Host.Sound (host : Host σ) : Prop where
  getProp : ∀ obj name, Answers (host.getProp obj name)
  putProp : ∀ obj name value, Answers (host.putProp obj name value)
  callVerb : ∀ obj name args, Answers (host.callVerb obj name args)
  callBiFunc : ∀ func args, Answers (host.callBiFunc func args)
  dict : ∀ r args, Answers (host.dict r args)
  report : ∀ code w, ∀ v ∈ host.report code w, unmarked v

theorem Host.Sound.ref {host : Host σ} (h : host.Sound) {base index : Var} (hb : unmarked base) :
    Answers (refCall host base index) := by
  unfold refCall
  split
  · exact h.dict _ _
  · exact answers_still fun r hr => given_ref hb hr

theorem Host.Sound.indexset {host : Host σ} (h : host.Sound) {base index value : Var}
    (hb : unmarked base) (hv : unmarked value) : Answers (indexsetCall host base index value) := by
  unfold indexsetCall
  split
  · exact h.dict _ _
  · exact answers_still fun r hr => given_indexset hb hv hr

/-- No variable holds a marker. -/
def Frame.Clean (f : Frame σ) : Prop := ∀ id, unmarked (f.env id)

theorem Frame.Clean.set {f : Frame σ} (h : f.Clean) {id : ℕ} {v : Var} (hv : unmarked v) :
    (f.set id v).Clean := by
  intro j
  by_cases hj : j = id
  · subst hj
    simpa [Frame.set] using hv
  · simpa [Frame.set, hj] using h j

theorem unmarked_pieces {ns : List ℕ} {l : List Var} (hl : ∀ v ∈ l, unmarked v) :
    ∀ piece ∈ pieces ns l, ∀ v ∈ piece, unmarked v := by
  induction ns generalizing l with
  | nil =>
    intro piece hp
    cases hp
  | cons n ns ih =>
    intro piece hp v hv
    rcases List.mem_cons.mp hp with rfl | hp
    · exact hl v (List.mem_of_mem_take hv)
    · exact ih (fun u hu => hl u (List.mem_of_mem_drop hu)) piece hp v hv

theorem Frame.Clean.assign {sc : Scatter} {ps : List (List Var)} {f : Frame σ} (h : f.Clean)
    (hp : ∀ piece ∈ ps, ∀ v ∈ piece, unmarked v) : (assign sc ps f).Clean := by
  fun_induction Run.assign sc ps f with
  | case1 id e next piece ps f ih =>
    refine ih (h.set (unmarked_list.mpr (hp piece (by simp)))) fun q hq => ?_
    exact hp q (by simp [hq])
  | case2 kind id e next x ps f hk ih =>
    refine ih (h.set (hp [x] (by simp) x (by simp))) fun q hq => ?_
    exact hp q (by simp [hq])
  | case3 kind id e next piece ps f hk hx ih =>
    exact ih h fun q hq => hp q (by simp [hq])
  | case4 => exact h

end Calls

end LambdaMoo.Run
