import LambdaMoo.Standing

/-!
# Labels of expressions

A label is settled once it points at a position and carries the counts of the
cells before it. Generating an expression keeps every cell that was there,
and settles each label it adds.
-/

set_option autoImplicit false

namespace LambdaMoo.CodeGen

def State.entries (s : State) : List Entry := s.code.map Cell.entry

@[simp] theorem State.entries_length (s : State) : s.entries.length = s.numBytes := by
  simp [State.entries, State.numBytes]

/-- The counters that belong to a list of cells; stack references are never counted. -/
def tally (es : List Entry) : Counts where
  literals := es.countP fun e => match e with | .operand .literal _ => true | _ => false
  forks := es.countP fun e => match e with | .operand .fork _ => true | _ => false
  varRefs := es.countP fun e => match e with | .operand .varRef _ => true | _ => false
  labels := es.countP fun e => match e with | .label => true | _ => false
  stackRefs := 0

/-- The label points at a position of the code and counts what is before it. -/
structure Resolved (es : List Entry) (l : Label) : Prop where
  le : l.value ≤ es.length
  prev : l.prev = tally (es.take l.value)

def pseudoLabel (value : ℕ) : Label := ⟨value, ⟨0, 0, 0, 0, 0⟩, none⟩

def Settled (es : List Entry) (l : Label) : Prop :=
  Resolved es l ∨ l = pseudoLabel 0 ∨ l = pseudoLabel 1

theorem Resolved.mono {es es' : List Entry} {l : Label} (h : Resolved es l) (hp : es <+: es') :
    Resolved es' l := by
  refine ⟨h.le.trans hp.length_le, ?_⟩
  rw [h.prev, List.prefix_iff_eq_take.mp hp, List.take_take, min_eq_left h.le]

theorem Settled.mono {es es' : List Entry} {l : Label} (h : Settled es l) (hp : es <+: es') :
    Settled es' l := h.imp_left (·.mono hp)

/-- The positions of a chain of linked labels, each linked to an earlier one. -/
def Linked (code : List Cell) : List ℕ → Option ℕ → Prop
  | [], label => label = none
  | k::S, label =>
    label = some k ∧ (∀ i ∈ S, i < k) ∧ ∃ l, code[k]? = some (.label l) ∧ Linked code S l.next

theorem Linked.congr {code code' : List Cell} {S : List ℕ} {label : Option ℕ}
    (h : Linked code S label) (hc : ∀ p ∈ S, code'[p]? = code[p]?) : Linked code' S label := by
  induction S generalizing label with
  | nil => exact h
  | cons k S ih =>
    obtain ⟨hk, hlt, l, hl, hS⟩ := h
    refine ⟨hk, hlt, l, ?_, ih hS fun p hp => hc p (List.mem_cons_of_mem _ hp)⟩
    rw [hc k List.mem_cons_self, hl]

theorem Linked.lt {code : List Cell} {S : List ℕ} {label : Option ℕ} (h : Linked code S label)
    {p : ℕ} (hp : p ∈ S) : p < code.length := by
  induction S generalizing label with
  | nil => cases hp
  | cons k S ih =>
    obtain ⟨-, -, l, hl, hS⟩ := h
    rcases List.mem_cons.mp hp with rfl | hp
    · exact (List.getElem?_eq_some_iff.mp hl).1
    · exact ih hS hp

theorem Linked.length_le {code : List Cell} {S : List ℕ} {label : Option ℕ} {m : ℕ}
    (h : Linked code S label) (hm : ∀ p ∈ S, p < m) : S.length ≤ m := by
  induction S generalizing label m with
  | nil => exact Nat.zero_le m
  | cons k S ih =>
    obtain ⟨-, hlt, l, -, hS⟩ := h
    have hk := hm k List.mem_cons_self
    have hS := ih hS hlt
    rw [List.length_cons]
    omega

theorem Linked.single {code : List Cell} {k : ℕ} {l : Label} (hl : code[k]? = some (.label l))
    (hn : l.next = none) : Linked code [k] (some k) :=
  ⟨rfl, by simp, l, hl, hn⟩

/-- Defining a chain gives all its labels the same target and changes nothing else. -/
theorem defineChain_get (value : ℕ) (prev : Counts) (n : ℕ) {S : List ℕ} {label : Option ℕ}
    {code : List Cell} (h : Linked code S label) (hn : S.length ≤ n) (p : ℕ) :
    (p ∉ S → (defineChain value prev n label code)[p]? = code[p]?) ∧
    (p ∈ S → ∃ next, (defineChain value prev n label code)[p]? =
      some (.label ⟨value, prev, next⟩)) := by
  induction S generalizing n label code with
  | nil =>
    have : defineChain value prev n label code = code := by
      cases n with
      | zero => rfl
      | succ n => rw [show label = none from h, defineChain]
    exact ⟨fun _ => by rw [this], fun hp => by cases hp⟩
  | cons k S ih =>
    obtain ⟨rfl, hlt, l, hl, hS⟩ := h
    obtain ⟨n, rfl⟩ : ∃ m, n = m+1 := ⟨n-1, by rw [List.length_cons] at hn; omega⟩
    have hk : k < code.length := (List.getElem?_eq_some_iff.mp hl).1
    have hkS : k ∉ S := fun hk => Nat.lt_irrefl k (hlt k hk)
    have hset : ∀ q ≠ k,
        (code.set k (.label { l with value := value, prev := prev }))[q]? = code[q]? :=
      fun q hq => List.getElem?_set_ne hq.symm
    have hS' := hS.congr fun q hq => hset q fun h => hkS (h ▸ hq)
    have hih := ih n hS' (by rw [List.length_cons] at hn; omega)
    simp only [defineChain, hl]
    constructor
    · intro hp
      rw [List.mem_cons, not_or] at hp
      rw [hih.1 hp.2, hset p hp.1]
    · intro hp
      rcases List.mem_cons.mp hp with rfl | hp
      · exact ⟨l.next, by rw [hih.1 hkS, List.getElem?_set_self hk]⟩
      · exact hih.2 hp

theorem defineLabel_get {s : State} {S : List ℕ} {label : Option ℕ}
    (h : Linked s.code S label) (p : ℕ) :
    (p ∉ S → (defineLabel label s).code[p]? = s.code[p]?) ∧
    (p ∈ S → ∃ next, (defineLabel label s).code[p]? =
      some (.label ⟨s.numBytes, s.num, next⟩)) :=
  defineChain_get _ _ _ h (h.length_le fun _ hp => h.lt hp) p

/-- The code from `s₀` on: what was there is kept, and of the labels added
since then only those at the positions `P` are still open. -/
structure Grows (s₀ s : State) (P : List ℕ) : Prop where
  entries : s₀.entries <+: s.entries
  keep : ∀ p < s₀.numBytes, s.code[p]? = s₀.code[p]?
  counted : s.num = tally s.entries
  loops : s.loops = s₀.loops
  literals : s₀.gstate.literals <+: s.gstate.literals
  forks : s₀.gstate.forkVectors <+: s.gstate.forkVectors
  labels : ∀ p l, s₀.numBytes ≤ p → s.code[p]? = some (.label l) → p ∈ P ∨ Settled s.entries l

namespace Grows

variable {s₀ s s' : State} {P : List ℕ} {k : ℕ}

theorem le (K : Grows s₀ s P) : s₀.numBytes ≤ s.numBytes := by
  simpa using K.entries.length_le

theorem refl (s : State) (hc : s.num = tally s.entries) : Grows s s [] := by
  refine ⟨List.prefix_rfl, fun _ _ => rfl, hc, rfl, List.prefix_rfl, List.prefix_rfl, ?_⟩
  intro p l hp hl
  have : p < s.code.length := (List.getElem?_eq_some_iff.mp hl).1
  simp only [State.numBytes] at hp
  omega

/-- One more cell. -/
theorem append (K : Grows s₀ s P) (c : Cell) (P' : List ℕ) (hcode : s'.code = s.code++[c])
    (hnum : s'.num = tally (s.entries++[c.entry])) (hloops : s'.loops = s.loops)
    (hlit : s.gstate.literals <+: s'.gstate.literals)
    (hforks : s.gstate.forkVectors <+: s'.gstate.forkVectors) (hP : ∀ p ∈ P, p ∈ P')
    (hl : ∀ l, c = .label l → s.numBytes ∈ P' ∨ Settled s.entries l) : Grows s₀ s' P' := by
  have he : s'.entries = s.entries++[c.entry] := by simp [State.entries, hcode]
  have hle := K.le
  refine ⟨?_, ?_, by rw [hnum, he], hloops.trans K.loops, K.literals.trans hlit,
    K.forks.trans hforks, ?_⟩
  · rw [he]
    exact K.entries.trans (List.prefix_append _ _)
  · intro p hp
    rw [hcode, List.getElem?_append_left (Nat.lt_of_lt_of_le hp hle)]
    exact K.keep p hp
  · intro p l hp hpl
    rw [hcode] at hpl
    have hpre : s.entries <+: s'.entries := by
      rw [he]
      exact List.prefix_append _ _
    rcases Nat.lt_trichotomy p s.code.length with hlt | heq | hgt
    · rw [List.getElem?_append_left hlt] at hpl
      exact (K.labels p l hp hpl).imp (hP p) (·.mono hpre)
    · subst heq
      simp only [List.getElem?_concat_length, Option.some.injEq] at hpl
      exact (hl l hpl).imp_right (·.mono hpre)
    · rw [List.getElem?_eq_none (by simp; omega)] at hpl
      cases hpl

/-- A change of the state that leaves code, counters, loops and tables alone. -/
theorem same (K : Grows s₀ s P) (hcode : s'.code = s.code) (hnum : s'.num = s.num)
    (hloops : s'.loops = s.loops) (hg : s'.gstate = s.gstate) : Grows s₀ s' P := by
  have he : s'.entries = s.entries := by rw [State.entries, hcode, State.entries]
  refine ⟨he ▸ K.entries, hcode ▸ K.keep, ?_, hloops.trans K.loops, hg ▸ K.literals,
    hg ▸ K.forks, ?_⟩
  · rw [hnum, he]
    exact K.counted
  · rw [hcode, he]
    exact K.labels

/-- The tables may have grown while the vector of a fork was generated. -/
theorem tables (K : Grows s₀ s P) {g : GState} (hl : s.gstate.literals <+: g.literals)
    (hf : s.gstate.forkVectors <+: g.forkVectors) : Grows s₀ { s with gstate := g } P :=
  ⟨K.entries, K.keep, K.counted, K.loops, K.literals.trans hl, K.forks.trans hf, K.labels⟩

theorem byte (K : Grows s₀ s P) (n : ℕ) : Grows s₀ (emitByte n s) P :=
  K.append (.byte n s.curStack) P rfl
    (K.counted.trans (by simp [tally, List.countP_append, Cell.entry])) rfl
    List.prefix_rfl List.prefix_rfl (fun _ h => h) (by simp)

theorem op (K : Grows s₀ s P) (o : Opcode) : Grows s₀ (emitOp o s) P := K.byte _

theorem extended (K : Grows s₀ s P) (eop : ExtendedOpcode) :
    Grows s₀ (emitExtendedByte eop s) P := (K.op _).byte _

theorem either (K : Grows s₀ s P) (o : Opcode ⊕ ExtendedOpcode) : Grows s₀ (emitEither o s) P := by
  cases o with
  | inl o => exact K.op o
  | inr eop => exact K.extended eop

theorem literal (K : Grows s₀ s P) (v : Var) : Grows s₀ (addLiteral v s) P := by
  refine K.append (.operand .literal (internLiteral v s.gstate.literals).1) P rfl ?_ rfl ?_
    List.prefix_rfl (fun _ h => h) (by simp)
  · simp [addLiteral, addFixup, K.counted, tally, List.countP_append, Cell.entry]
  · simp only [addLiteral, addFixup, internLiteral]
    split
    · exact List.prefix_append _ _
    · exact List.prefix_rfl

theorem fork (K : Grows s₀ s P) (b : Finished) : Grows s₀ (addFork b s) P := by
  refine K.append (.operand .fork s.gstate.forkVectors.length) P rfl ?_ rfl List.prefix_rfl
    (List.prefix_append _ _) (fun _ h => h) (by simp)
  simp [addFork, addFixup, K.counted, tally, List.countP_append, Cell.entry]

theorem varRef (K : Grows s₀ s P) (slot : ℕ) : Grows s₀ (addVarRef slot s) P := by
  refine K.append (.operand .varRef slot) P rfl ?_ rfl List.prefix_rfl List.prefix_rfl
    (fun _ h => h) (by simp)
  simp [addVarRef, addFixup, K.counted, tally, List.countP_append, Cell.entry]

theorem stackRef (K : Grows s₀ s P) (index : ℕ) : Grows s₀ (addStackRef index s) P := by
  refine K.append (.operand .stack index) P rfl ?_ rfl List.prefix_rfl List.prefix_rfl
    (fun _ h => h) (by simp)
  simp [addStackRef, addFixup, K.counted, tally, List.countP_append, Cell.entry]

theorem knownLabel (K : Grows s₀ s P) (l : Label) (hl : Settled s.entries l) :
    Grows s₀ (addKnownLabel l s) P := by
  refine K.append (.label l) P rfl ?_ rfl List.prefix_rfl List.prefix_rfl (fun _ h => h) ?_
  · simp [addKnownLabel, K.counted, tally, List.countP_append, Cell.entry]
  · intro l' h
    injection h with h
    exact .inr (h ▸ hl)

theorem linkedLabel (K : Grows s₀ s P) (next : Option ℕ) :
    Grows s₀ (addLinkedLabel next s).2 (s.numBytes::P) := by
  refine K.append (.label ⟨0, s.num, next⟩) _ rfl ?_ rfl List.prefix_rfl List.prefix_rfl
    (fun _ h => List.mem_cons_of_mem _ h) (fun _ _ => .inl List.mem_cons_self)
  simp [addLinkedLabel, addKnownLabel, K.counted, tally, List.countP_append, Cell.entry]

theorem label (K : Grows s₀ s P) : Grows s₀ (addLabel s).2 (s.numBytes::P) := K.linkedLabel none

theorem push (K : Grows s₀ s P) (n : ℕ) : Grows s₀ (pushStack n s) P := K.same rfl rfl rfl rfl

theorem pop (K : Grows s₀ s P) (n : ℕ) : Grows s₀ (popStack n s) P := K.same rfl rfl rfl rfl

theorem save (K : Grows s₀ s P) : Grows s₀ (saveStackTop s).2 P := K.same rfl rfl rfl rfl

theorem restore (K : Grows s₀ s P) (old : Option ℕ) : Grows s₀ (restoreStackTop old s) P :=
  K.same rfl rfl rfl rfl

theorem varOp (K : Grows s₀ s P) (isPut : Bool) (slot : ℕ) :
    Grows s₀ (emitVarOp isPut slot s) P := by
  unfold emitVarOp
  split
  · exact K.op _
  · exact (K.op _).varRef slot

theorem var (K : Grows s₀ s P) (v : Var) : Grows s₀ (emitVar v s) P := by
  unfold emitVar
  split
  · split
    · exact K.op _
    · exact (K.op _).literal _
  · exact (K.op _).literal _

theorem weaken (K : Grows s₀ s P) (P' : List ℕ) (hP : ∀ p ∈ P, p ∈ P') : Grows s₀ s P' :=
  ⟨K.entries, K.keep, K.counted, K.loops, K.literals, K.forks,
    fun p l hp hl => (K.labels p l hp hl).imp_left (hP p)⟩

/-- Defining a chain of labels that were all added since `s₀`. -/
theorem define (K : Grows s₀ s P) {S : List ℕ} {label : Option ℕ} (hL : Linked s.code S label)
    (hS : ∀ p ∈ S, s₀.numBytes ≤ p) (P' : List ℕ) (hP : ∀ p ∈ P, p ∈ S ∨ p ∈ P') :
    Grows s₀ (defineLabel label s) P' := by
  have he : (defineLabel label s).entries = s.entries := by
    simp [State.entries, defineLabel, defineChain_entries]
  refine ⟨he ▸ K.entries, ?_, ?_, K.loops, K.literals, K.forks, ?_⟩
  · intro p hp
    rw [(defineLabel_get hL p).1 fun h => by have := hS p h; omega, K.keep p hp]
  · rw [he]
    exact K.counted
  · intro p l hp hl
    rw [he]
    by_cases hpS : p ∈ S
    · obtain ⟨next, hl'⟩ := (defineLabel_get hL p).2 hpS
      rw [hl', Option.some.injEq, Cell.label.injEq] at hl
      subst hl
      refine .inr (.inl ⟨by simp, ?_⟩)
      simp only [← State.entries_length, List.take_length]
      exact K.counted
    · rw [(defineLabel_get hL p).1 hpS] at hl
      rcases K.labels p l hp hl with h | h
      · exact (hP p h).resolve_left hpS |> .inl
      · exact .inr h

end Grows

@[simp] theorem addLabel_pos (s : State) : (addLabel s).1 = s.numBytes := rfl

theorem addLabel_get (s : State) :
    (addLabel s).2.code[s.numBytes]? = some (.label ⟨0, s.num, none⟩) := by
  simp [addLabel, addLinkedLabel, addKnownLabel, State.numBytes]

theorem addLabel_lt (s : State) : s.numBytes < (addLabel s).2.numBytes := by
  simp [addLabel, addLinkedLabel, addKnownLabel, State.numBytes]

theorem storeLvalue_grows (lhs : Expr) {s₀ s s' : State} {P : List ℕ} (K : Grows s₀ s P)
    (h : storeLvalue lhs s = .ok s') : Grows s₀ s' P := by
  match lhs with
  | .range base lo hi =>
    rw [storeLvalue] at h
    exact storeLvalue_grows base ((K.extended .rangeset).pop 3) h
  | .index base index =>
    rw [storeLvalue] at h
    exact storeLvalue_grows base ((K.op .indexset).pop 2) h
  | .id slot =>
    rw [storeLvalue, Except.ok.injEq] at h
    exact h ▸ K.varOp true slot
  | .prop obj name =>
    rw [storeLvalue, Except.ok.injEq] at h
    exact h ▸ (K.op .putProp).pop 2
  | .var _ | .verb _ _ _ | .asgn _ _ | .call _ _ | .binary _ _ _ | .and _ _ | .or _ _
  | .unary _ _ | .list _ | .cond _ _ _ | .catch _ _ _ | .length | .scatter _ =>
    simp [storeLvalue] at h

theorem storeRhs_grows (lhs : Expr) {s₀ s s' : State} {P : List ℕ} (K : Grows s₀ s P)
    (h : storeRhs lhs s = .ok s') : Grows s₀ s' P := by
  simp only [storeRhs, bind_ok, pure_ok] at h
  obtain ⟨s1, h1, rfl⟩ := h
  cases hi : Expr.isIndexed lhs with
  | false =>
    rw [hi] at h1
    exact storeLvalue_grows lhs K h1
  | true =>
    rw [hi] at h1
    exact ((storeLvalue_grows lhs (K.op .putTemp) h1).op .pop).op .pushTemp

/-- Labels that are still to be defined one by one. -/
def Open (s : State) (labels : List ℕ) : Prop :=
  labels.Nodup ∧ ∀ k ∈ labels, ∃ l, s.code[k]? = some (.label l) ∧ l.next = none

theorem Open.keep {s s' : State} {labels : List ℕ} {P : List ℕ} (ho : Open s labels)
    (K : Grows s s' P) : Open s' labels := by
  refine ⟨ho.1, fun k hk => ?_⟩
  obtain ⟨l, hl, hn⟩ := ho.2 k hk
  have hlt : k < s.numBytes := (List.getElem?_eq_some_iff.mp hl).1
  exact ⟨l, (K.keep k hlt).trans hl, hn⟩

theorem Open.label {s : State} {labels : List ℕ} (ho : Open s labels) :
    Open (addLabel s).2 (labels++[s.numBytes]) := by
  have hlt : ∀ k ∈ labels, k < s.code.length := fun k hk => by
    obtain ⟨l, hl, -⟩ := ho.2 k hk
    exact (List.getElem?_eq_some_iff.mp hl).1
  refine ⟨?_, fun k hk => ?_⟩
  · refine List.nodup_append.mpr ⟨ho.1, List.nodup_singleton _, fun a ha b hb => ?_⟩
    have := hlt a ha
    rw [List.mem_singleton.mp hb, State.numBytes]
    omega
  · rcases List.mem_append.mp hk with hk | hk
    · obtain ⟨l, hl, hn⟩ := ho.2 k hk
      refine ⟨l, ?_, hn⟩
      simpa [addLabel, addLinkedLabel, addKnownLabel, List.getElem?_append_left (hlt k hk)] using hl
    · rw [List.mem_singleton.mp hk]
      exact ⟨_, addLabel_get s, rfl⟩

theorem Open.pop {s : State} {labels : List ℕ} (ho : Open s labels) (n : ℕ) :
    Open (popStack n s) labels := ho

theorem Open.push {s : State} {labels : List ℕ} (ho : Open s labels) (n : ℕ) :
    Open (pushStack n s) labels := ho

theorem Open.nil (s : State) : Open s [] := ⟨List.nodup_nil, by simp⟩

theorem Open.left {s : State} {labels rest : List ℕ} (ho : Open s (labels++rest)) :
    Open s labels :=
  ⟨ho.1.of_append_left, fun k hk => ho.2 k (List.mem_append_left _ hk)⟩

theorem Open.define {s : State} {k : ℕ} {labels : List ℕ} (ho : Open s (k::labels)) :
    Open (defineLabel (some k) s) labels := by
  obtain ⟨l, hl, hn⟩ := ho.2 k List.mem_cons_self
  refine ⟨(List.nodup_cons.mp ho.1).2, fun j hj => ?_⟩
  have hne : j ∉ [k] := by
    rw [List.mem_singleton]
    exact fun h => (List.nodup_cons.mp ho.1).1 (h ▸ hj)
  rw [(defineLabel_get (Linked.single hl hn) j).1 hne]
  exact ho.2 j (List.mem_cons_of_mem _ hj)

theorem Grows.close {s₀ s : State} {Q : List ℕ} (K : Grows s₀ s Q) {k : ℕ} {labels : List ℕ}
    (ho : Open s (k::labels)) (hk : s₀.numBytes ≤ k) (P : List ℕ)
    (hP : ∀ p ∈ Q, p = k ∨ p ∈ P) : Grows s₀ (defineLabel (some k) s) P := by
  obtain ⟨l, hl, hn⟩ := ho.2 k List.mem_cons_self
  exact K.define (.single hl hn) (by simpa using hk) P (by simpa using hP)

theorem scatterTargets_grows (sc : Scatter) {s₀ s : State} {P : List ℕ} (K : Grows s₀ s P) :
    Grows s₀ (scatterTargets sc s).2 ((scatterTargets sc s).1++P) := by
  match sc with
  | .nil => exact K
  | .cons .optional id (.some e) next =>
    have K1 := scatterTargets_grows next (K.varRef id).label
    exact K1.weaken _ (by simp [scatterTargets]; grind)
  | .cons .optional id .none next =>
    exact scatterTargets_grows next ((K.varRef id).knownLabel _ (.inr (.inr rfl)))
  | .cons .required id _ next | .cons .rest id _ next =>
    exact scatterTargets_grows next ((K.varRef id).knownLabel _ (.inr (.inl rfl)))

theorem scatterTargets_open (sc : Scatter) {s : State} (hc : s.num = tally s.entries) :
    Open (scatterTargets sc s).2 (scatterTargets sc s).1 ∧
      ∀ k ∈ (scatterTargets sc s).1, s.numBytes ≤ k := by
  have K := Grows.refl s hc
  match sc with
  | .nil => exact ⟨⟨List.nodup_nil, by simp [scatterTargets]⟩, by simp [scatterTargets]⟩
  | .cons .optional id (.some e) next =>
    have K1 := (K.varRef id).label
    obtain ⟨ho, hge⟩ := scatterTargets_open next K1.counted
    have hlt := addLabel_lt (addVarRef id s)
    have hk := (scatterTargets_grows next (.refl _ K1.counted)).keep _ hlt
    have hle := (K.varRef id).le
    refine ⟨⟨List.nodup_cons.mpr ⟨fun h => ?_, ho.1⟩, ?_⟩, ?_⟩
    · have := hge _ h
      omega
    · intro k hk'
      rcases List.mem_cons.mp hk' with rfl | hk'
      · exact ⟨_, hk.trans (addLabel_get _), rfl⟩
      · exact ho.2 k hk'
    · intro k hk'
      rcases List.mem_cons.mp hk' with rfl | hk'
      · exact hle
      · exact hle.trans (hlt.le.trans (hge k hk'))
  | .cons .optional id .none next =>
    have K1 := (K.varRef id).knownLabel _ (.inr (.inr rfl))
    obtain ⟨ho, hge⟩ := scatterTargets_open next K1.counted
    exact ⟨ho, fun k hk => K1.le.trans (hge k hk)⟩
  | .cons .required id _ next | .cons .rest id _ next =>
    have K1 := (K.varRef id).knownLabel _ (.inr (.inl rfl))
    obtain ⟨ho, hge⟩ := scatterTargets_open next K1.counted
    exact ⟨ho, fun k hk => K1.le.trans (hge k hk)⟩

mutual
theorem generateExpr_grows (e : Expr) {s₀ s s' : State} {P : List ℕ} (K : Grows s₀ s P)
    (h : generateExpr e s = .ok s') : Grows s₀ s' P := by
  match e with
  | .var v =>
    rw [generateExpr, Except.ok.injEq] at h
    exact h ▸ (K.var v).push 1
  | .id slot =>
    rw [generateExpr, Except.ok.injEq] at h
    exact h ▸ (K.varOp false slot).push 1
  | .and lhs rhs =>
    simp only [generateExpr, bind_ok, pure_ok] at h
    obtain ⟨s1, h1, s2, h2, rfl⟩ := h
    have K1 := (generateExpr_grows lhs K h1).op .and
    have K2 := generateExpr_grows rhs (K1.label.pop 1) h2
    have B2 := generateExpr_grows rhs (.refl _ (K1.label.pop 1).counted) h2
    exact K2.close (((Open.nil _).label.pop 1).keep B2) K1.le P (by simp)
  | .or lhs rhs =>
    simp only [generateExpr, bind_ok, pure_ok] at h
    obtain ⟨s1, h1, s2, h2, rfl⟩ := h
    have K1 := (generateExpr_grows lhs K h1).op .or
    have K2 := generateExpr_grows rhs (K1.label.pop 1) h2
    have B2 := generateExpr_grows rhs (.refl _ (K1.label.pop 1).counted) h2
    exact K2.close (((Open.nil _).label.pop 1).keep B2) K1.le P (by simp)
  | .unary op arg =>
    simp only [generateExpr, bind_ok, pure_ok] at h
    obtain ⟨s1, h1, rfl⟩ := h
    exact (generateExpr_grows arg K h1).either _
  | .binary op lhs rhs =>
    simp only [generateExpr, bind_ok, pure_ok] at h
    obtain ⟨s1, h1, s2, h2, rfl⟩ := h
    exact ((generateExpr_grows rhs (generateExpr_grows lhs K h1) h2).either _).pop 1
  | .prop obj name =>
    simp only [generateExpr, bind_ok, pure_ok] at h
    obtain ⟨s1, h1, s2, h2, rfl⟩ := h
    exact ((generateExpr_grows name (generateExpr_grows obj K h1) h2).op _).pop 1
  | .index base index =>
    simp only [generateExpr, bind_ok, pure_ok] at h
    obtain ⟨s1, h1, s2, h2, rfl⟩ := h
    have K2 := generateExpr_grows index (generateExpr_grows base K h1).save h2
    exact ((K2.restore _).op .ref).pop 1
  | .range base lo hi =>
    simp only [generateExpr, bind_ok, pure_ok] at h
    obtain ⟨s1, h1, s2, h2, s3, h3, rfl⟩ := h
    have K2 := generateExpr_grows lo (generateExpr_grows base K h1).save h2
    have K3 := generateExpr_grows hi K2 h3
    exact ((K3.restore _).op .rangeRef).pop 2
  | .length =>
    rw [generateExpr] at h
    split at h
    · rw [Except.ok.injEq] at h
      exact h ▸ ((K.extended .length).stackRef _).push 1
    · cases h
  | .list args =>
    rw [generateExpr] at h
    exact generateArgList_grows args K h
  | .call func args =>
    simp only [generateExpr, bind_ok, pure_ok] at h
    obtain ⟨s1, h1, rfl⟩ := h
    exact ((generateArgList_grows args K h1).op .biFuncCall).byte func
  | .verb obj name args =>
    simp only [generateExpr, bind_ok, pure_ok] at h
    obtain ⟨s1, h1, s2, h2, s3, h3, rfl⟩ := h
    have K2 := generateExpr_grows name (generateExpr_grows obj K h1) h2
    exact ((generateArgList_grows args K2 h3).op .callVerb).pop 2
  | .cond condition consequent alternate =>
    simp only [generateExpr, bind_ok, pure_ok] at h
    obtain ⟨s1, h1, s2, h2, s3, h3, rfl⟩ := h
    have K1 := (generateExpr_grows condition K h1).op .ifQues
    have K2 := (generateExpr_grows consequent (K1.label.pop 1) h2).op .jump
    have B2 := (generateExpr_grows consequent (.refl _ (K1.label.pop 1).counted) h2).op .jump
    have o2 := (((Open.nil _).label.pop 1).keep B2).label.pop 1
    have K2' := (K2.label.pop 1).close o2 K1.le ((emitOp .jump s2).numBytes::P) (by grind)
    have K3 := generateExpr_grows alternate K2' h3
    have B3 := generateExpr_grows alternate (.refl _ K2'.counted) h3
    exact K3.close (o2.define.keep B3) K2.le P (by simp)
  | .catch body codes default =>
    simp only [generateExpr, bind_ok, pure_ok] at h
    obtain ⟨s1, h1, s2, h2, s3, h3, rfl⟩ := h
    have K1 : Grows s₀ s1 P := by
      match codes with
      | .nil =>
        rw [codesOr, Except.ok.injEq] at h1
        exact h1 ▸ (K.op _).push 1
      | .cons kind expr next => exact generateArgList_grows _ K h1
    have K1' := K1.extended .pushLabel
    have K2 := generateExpr_grows body (((K1'.label.push 1).extended .catch).push 1) h2
    have B1 := ((Grows.refl _ K1'.label.counted).push 1).extended .catch
    have B2 := (generateExpr_grows body (B1.push 1) h2).extended .endCatch
    have o2 := ((Open.nil _).label.keep B2).label.pop 3
    have K2' := ((K2.extended .endCatch).label.pop 3).close o2 K1'.le
      ((emitExtendedByte .endCatch s2).numBytes::P) (by grind)
    have K3 := generateDefault_grows default K2' h3
    have B3 := generateDefault_grows default (.refl _ K2'.counted) h3
    exact K3.close (o2.define.keep B3) (K2.extended _).le P (by simp)
  | .asgn (.scatter sc) rhs =>
    simp only [generateExpr, bind_ok, pure_ok] at h
    obtain ⟨s1, h1, s2, h2, rfl⟩ := h
    have K1 := (generateExpr_grows rhs K h1).extended .scatter
    have K1' := ((K1.byte sc.length).byte (Scatter.nreq sc)).byte (Scatter.rest sc)
    have K2 := scatterTargets_grows sc K1'
    have hlen := scatterTargets_length sc (emitByte (Scatter.rest sc) (emitByte (Scatter.nreq sc)
      (emitByte sc.length (emitExtendedByte .scatter s1))))
    obtain ⟨o2, hge⟩ := scatterTargets_open sc K1'.counted
    generalize scatterTargets sc _ = r at h2 K2 hlen o2 hge ⊢
    obtain ⟨labels, st⟩ := r
    have K2' := K2.label.weaken (labels++st.numBytes::P) (by grind)
    obtain ⟨K3, o3⟩ := generateDefaults_grows sc K2' o2.label
      (fun k hk => K1'.le.trans (hge k hk)) hlen h2
    exact K3.close o3 K2.le P (by simp)
  | .asgn (.id _) rhs | .asgn (.prop _ _) rhs | .asgn (.index _ _) rhs | .asgn (.range _ _ _) rhs
  | .asgn (.var _) rhs | .asgn (.verb _ _ _) rhs | .asgn (.asgn _ _) rhs | .asgn (.call _ _) rhs
  | .asgn (.binary _ _ _) rhs | .asgn (.and _ _) rhs | .asgn (.or _ _) rhs | .asgn (.unary _ _) rhs
  | .asgn (.list _) rhs | .asgn (.cond _ _ _) rhs | .asgn (.catch _ _ _) rhs | .asgn .length rhs =>
    rw [generateExpr_asgn _ rhs (by simp), bind_ok] at h
    obtain ⟨s1, h1, h⟩ := h
    rw [bind_ok] at h
    obtain ⟨s2, h2, h3⟩ := h
    exact storeRhs_grows _ (generateExpr_grows rhs (pushLvalue_grows _ K h1) h2) h3
  | .scatter _ => simp [generateExpr] at h
theorem generateArgList_grows (args : ArgList) {s₀ s s' : State} {P : List ℕ} (K : Grows s₀ s P)
    (h : generateArgList args s = .ok s') : Grows s₀ s' P := by
  match args with
  | .nil =>
    simp only [generateArgList, Except.ok.injEq] at h
    exact h ▸ (K.op .makeEmptyList).push 1
  | .cons kind expr next =>
    simp only [generateArgList, bind_ok] at h
    obtain ⟨s1, h1, h2⟩ := h
    exact generateArgs_grows next ((generateExpr_grows expr K h1).op _) h2
theorem generateArgs_grows (args : ArgList) {s₀ s s' : State} {P : List ℕ} (K : Grows s₀ s P)
    (h : generateArgs args s = .ok s') : Grows s₀ s' P := by
  match args with
  | .nil =>
    simp only [generateArgs, Except.ok.injEq] at h
    exact h ▸ K
  | .cons kind expr next =>
    simp only [generateArgs, bind_ok] at h
    obtain ⟨s1, h1, h2⟩ := h
    exact generateArgs_grows next (((generateExpr_grows expr K h1).op _).pop 1) h2
theorem pushLvalue_grows (e : Expr) {above : Bool} {s₀ s s' : State} {P : List ℕ}
    (K : Grows s₀ s P) (h : pushLvalue e above s = .ok s') : Grows s₀ s' P := by
  match e with
  | .range base lo hi =>
    simp only [pushLvalue, bind_ok, pure_ok] at h
    obtain ⟨s1, h1, s2, h2, s3, h3, rfl⟩ := h
    have K2 := generateExpr_grows lo (pushLvalue_grows base K h1).save h2
    exact (generateExpr_grows hi K2 h3).restore _
  | .index base index =>
    simp only [pushLvalue, bind_ok, pure_ok] at h
    obtain ⟨s1, h1, s2, h2, rfl⟩ := h
    have K2 := (generateExpr_grows index (pushLvalue_grows base K h1).save h2).restore
    cases above with
    | false => exact K2 _
    | true => exact ((K2 _).op .pushRef).push 1
  | .id slot =>
    rw [pushLvalue, Except.ok.injEq] at h
    subst h
    cases above with
    | false => exact K
    | true => exact (K.varOp false slot).push 1
  | .prop obj name =>
    simp only [pushLvalue, bind_ok, pure_ok] at h
    obtain ⟨s1, h1, s2, h2, rfl⟩ := h
    have K2 := generateExpr_grows name (generateExpr_grows obj K h1) h2
    cases above with
    | false => exact K2
    | true => exact (K2.op .pushGetProp).push 1
  | .var _ | .verb _ _ _ | .asgn _ _ | .call _ _ | .binary _ _ _ | .and _ _ | .or _ _
  | .unary _ _ | .list _ | .cond _ _ _ | .catch _ _ _ | .length | .scatter _ =>
    simp [pushLvalue] at h
theorem generateDefaults_grows (sc : Scatter) {labels rest : List ℕ} {s₀ s s' : State}
    {P : List ℕ} (K : Grows s₀ s (labels++P)) (ho : Open s (labels++rest))
    (hge : ∀ k ∈ labels, s₀.numBytes ≤ k) (hlen : labels.length = Scatter.defaults sc)
    (h : generateDefaults sc labels s = .ok s') : Grows s₀ s' P ∧ Open s' rest := by
  match sc, labels with
  | .nil, _ =>
    rw [generateDefaults, Except.ok.injEq] at h
    rw [Scatter.defaults, List.length_eq_zero_iff] at hlen
    subst h hlen
    exact ⟨K, ho⟩
  | .cons .optional id (.some expr) next, label::labels =>
    simp only [generateDefaults, bind_ok] at h
    obtain ⟨s1, h1, h2⟩ := h
    have K1 := K.close ho (hge label List.mem_cons_self) (labels++P) (by simp)
    have B1 := generateExpr_grows expr (.refl _ K1.counted) h1
    have K2 := (((generateExpr_grows expr K1 h1).varOp true id).op .pop).pop 1
    have ho2 := ho.define.keep (((B1.varOp true id).op .pop).pop 1)
    exact generateDefaults_grows next K2 ho2 (fun k hk => hge k (List.mem_cons_of_mem _ hk))
      (Nat.succ.inj hlen) h2
  | .cons .optional id (.some expr) next, [] => simp [Scatter.defaults] at hlen
  | .cons .optional id .none next, _ | .cons .required id _ next, _ | .cons .rest id _ next, _ =>
    simp only [generateDefaults] at h
    exact generateDefaults_grows next K ho hge hlen h
theorem generateDefault_grows (e : OptExpr) {s₀ s s' : State} {P : List ℕ} (K : Grows s₀ s P)
    (h : generateDefault e s = .ok s') : Grows s₀ s' P := by
  match e with
  | .some expr =>
    rw [generateDefault] at h
    exact generateExpr_grows expr ((K.op .pop).pop 1) h
  | .none =>
    rw [generateDefault, Except.ok.injEq] at h
    exact h ▸ (K.op _).op .ref
end
end LambdaMoo.CodeGen
