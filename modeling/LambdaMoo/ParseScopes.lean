import LambdaMoo.Identifiers
import LambdaMoo.Parser
import LambdaMoo.Names
import LambdaMoo.Scopes

/-!
# What the actions of expressions keep

The parser counts the brackets around an expression, keeps a stack of the
loops around a statement and looks names up in a table that only grows. Each
rule is taken with the states before and after its symbols: it leaves count
and stack as it found them, and unless it complains, the tree it builds is in
scope once the slots are read in the final table `N` of names.
-/

set_option autoImplicit false

namespace LambdaMoo.Parse
open LambdaMoo.DbIo LambdaMoo.Grammar

/-- The slot of a name in the table of a program. -/
def slotIn (names : List Str) (w : Str) : ℕ := names.findIdx (fun n => mystrcasecmp n w == 0)

/-- No two names of the table are the same up to case. -/
structure Tidy (names : List Str) : Prop where
  noNul : ∀ n ∈ names, 0 ∉ n
  distinct : names.Pairwise (fun n w => mystrcasecmp n w ≠ 0)

/-- No complaint so far, and no name that is not in the table `N`. -/
def Quiet (N : List Str) (s : PState) : Prop := s.errors = [] ∧ s.names <+: N

/-- The loops that an exit may leave, innermost first. -/
def openLoops (N : List Str) (loops : List LoopEntry) : List (Option ℕ) :=
  (loops.takeWhile (fun l => !l.isBarrier)).map (fun l => l.name.map (slotIn N))

/-- Where a statement stands. -/
structure AtStmt (s : PState) : Prop where
  dollars : s.dollarsOk = 0
  loops : ∀ l ∈ s.loops, ∀ w, l.name = some w → 0 ∉ w

def InScope (N : List Str) (s : PState) : Val → Prop
  | .expr e => e.scoped N.length (decide (s.dollarsOk ≠ 0)) = true
  | .args a => a.scoped N.length (decide (s.dollarsOk ≠ 0)) = true
  | .default d => d.scoped N.length (decide (s.dollarsOk ≠ 0)) = true
  | .scatter sc => sc.scoped N.length (decide (s.dollarsOk ≠ 0)) = true
  | .stmts ss => AtStmt s → ss.scoped N.length (openLoops N s.loops) = true
  | .arms arms => AtStmt s → arms.scoped N.length (openLoops N s.loops) = true
  | .excepts arms => AtStmt s → arms.scoped N.length (openLoops N s.loops) = true
  | _ => True

def nameAt (left : List Val) (k : ℕ) : Option Str :=
  match left[k]? with
  | some (.string w) => some w
  | _ => none

/-- The loops once a symbol is read. -/
def loopsAfter (left : List Val) : Nt → List LoopEntry → List LoopEntry
  | .pushForList, ls => ⟨nameAt left 4, false⟩::ls
  | .pushForRange, ls => ⟨nameAt left 6, false⟩::ls
  | .pushWhile, ls => ⟨none, false⟩::ls
  | .pushWhileId, ls => ⟨nameAt left 3, false⟩::ls
  | .suspendScope, ls => ⟨none, true⟩::ls
  | _, ls => ls

def dollarsAfter : Nt → ℤ → ℤ
  | .dollarsUp, d => d+1
  | _, d => d

/-- The symbols that keep the loops and the places of `$`. -/
def Nt.neutral : Nt → Bool
  | .dollarsUp | .pushForList | .pushForRange | .pushWhile | .pushWhileId | .suspendScope => false
  | _ => true

/-- A value that a node can have satisfies `P`. -/
def Nt.Value : Nt → (Val → Prop) → Prop
  | .expr, P => ∃ e, P (.expr e)
  | .program, P | .statements, P | .statement, P | .elsepart, P => ∃ ss, P (.stmts ss)
  | .elseifs, P => ∃ arms, P (.arms arms)
  | .excepts, P | .except, P => ∃ arms, P (.excepts arms)
  | .optId, P => P (.optId none) ∨ ∃ w, 0 ∉ w ∧ P (.optId (some w))
  | .codes, P | .arglist, P | .neArglist, P => ∃ a, P (.args a)
  | .default, P => ∃ d, P (.default d)
  | .scatter, P | .scatterItem, P => ∃ sc, P (.scatter sc)
  | _, P => ∃ v, P v

/-- Values that some symbols can have together satisfy `P`. -/
def Shaped : List Sym → (List Val → Prop) → Prop
  | [], P => P []
  | .token k::γ, P => k.Value fun u => Shaped γ fun us => P (u::us)
  | .node nt::γ, P => nt.Value fun u => Shaped γ fun us => P (u::us)

/-- The values of the nodes among some symbols satisfy `P`. -/
def Nodes (P : Val → Prop) : List Sym → List Val → Prop
  | .token _::γ, _::us => Nodes P γ us
  | .node _::γ, u::us => P u ∧ Nodes P γ us
  | _, _ => True

/-- A step from `s` to `s'`, which has the loops `loops` and the count `d`. -/
structure Effect (N : List Str) (s : PState) (loops : List LoopEntry) (d : ℤ) (s' : PState) :
    Prop where
  tidy : Tidy s.names → Tidy s'.names
  quiet : Quiet N s' → Quiet N s
  loops : s'.loops = loops
  dollars : s'.dollarsOk = d

structure Good (N : List Str) (left : List Val) (nt : Nt) (s : PState) (v : Val) (s' : PState) :
    Prop where
  effect : Effect N s (loopsAfter left nt s.loops) (dollarsAfter nt s.dollarsOk) s'
  value : nt.Value (v = ·)
  inScope : Tidy N → Quiet N s' → InScope N s v

theorem inScope_congr {N : List Str} {a s : PState} (hl : a.loops = s.loops)
    (hd : a.dollarsOk = s.dollarsOk) {v : Val} (h : InScope N a v) : InScope N s v := by
  have hat (hs : AtStmt s) : AtStmt a := ⟨hd.trans hs.dollars, hl ▸ hs.loops⟩
  cases v with
  | expr | args | default | scatter => rwa [InScope, ← hd]
  | stmts | arms | excepts =>
    intro hs
    rw [← hl]
    exact h (hat hs)
  | _ => trivial

namespace Effect
variable {N : List Str} {s a b : PState} {l : List LoopEntry} {d : ℤ}

theorem refl (N : List Str) (s : PState) : Effect N s s.loops s.dollarsOk s :=
  ⟨id, id, rfl, rfl⟩

theorem trans {l' : List LoopEntry} {d' : ℤ} (h : Effect N s l d a) (h' : Effect N a l' d' b) :
    Effect N s l' d' b :=
  ⟨fun ht => h'.tidy (h.tidy ht), fun hq => h.quiet (h'.quiet hq), h'.loops, h'.dollars⟩

theorem keep (h : Effect N s l d a) (h' : Effect N a a.loops a.dollarsOk b) : Effect N s l d b :=
  ⟨fun ht => h'.tidy (h.tidy ht), fun hq => h.quiet (h'.quiet hq), h'.loops.trans h.loops,
    h'.dollars.trans h.dollars⟩

theorem inScope (h : Effect N s s.loops s.dollarsOk a) {v : Val} (hv : InScope N a v) :
    InScope N s v := inScope_congr h.loops h.dollars hv

end Effect

theorem Good.neutral {N : List Str} {left : List Val} {nt : Nt} {s s' : PState} {v : Val}
    (h : Good N left nt s v s') (hn : nt.neutral = true) :
    Effect N s s.loops s.dollarsOk s' := by
  cases nt <;> first | exact h.effect | exact nomatch hn

def neutralSyms (γ : List Sym) : Bool :=
  γ.all fun
    | .token _ => true
    | .node nt => nt.neutral

theorem Nodes.imp {P Q : Val → Prop} {γ : List Sym} {us : List Val} (h : Nodes P γ us)
    (hPQ : ∀ v, P v → Q v) : Nodes Q γ us := by
  induction γ generalizing us with
  | nil => trivial
  | cons sym γ ih =>
    cases us with
    | nil => cases sym <;> trivial
    | cons u us =>
      cases sym with
      | token k => exact ih h
      | node nt => exact ⟨hPQ u h.1, ih h.2⟩

theorem Nt.Value.imp {nt : Nt} {P Q : Val → Prop} (h : nt.Value P) (hPQ : ∀ v, P v → Q v) :
    nt.Value Q := by
  cases nt
  case optId => exact Or.imp (hPQ _) (Exists.imp fun _ => And.imp_right (hPQ _)) h
  all_goals exact Exists.imp (fun _ => hPQ _) h

section
variable {γ : List Sym} {u : Val} {us : List Val}

theorem Shaped.imp {P Q : List Val → Prop} (h : Shaped γ P) (hPQ : ∀ us, P us → Q us) :
    Shaped γ Q := by
  induction γ generalizing P Q with
  | nil => exact hPQ _ h
  | cons sym γ ih =>
    cases sym with
    | token k => exact Kind.Value.imp h fun u h => ih h fun us => hPQ (u::us)
    | node nt => exact Nt.Value.imp h fun u h => ih h fun us => hPQ (u::us)

theorem Shaped.token (h : Shaped γ (us = ·)) {k : Kind} (hu : PlainToken k u) :
    Shaped (.token k::γ) (u::us = ·) :=
  Kind.Value.imp hu fun _ hu => h.imp fun _ hus => by rw [hu, hus]

theorem Shaped.node (h : Shaped γ (us = ·)) {nt : Nt} (hu : nt.Value (u = ·)) :
    Shaped (.node nt::γ) (u::us = ·) :=
  hu.imp fun _ hu => h.imp fun _ hus => by rw [hu, hus]

end

theorem trace_shaped {N : List Str} {left us : List Val} {γ : List Sym} {s s' : PState}
    (h : Trace PlainToken (Good N) left γ s us s') : Shaped γ (us = ·) := by
  induction γ generalizing left us s with
  | nil => exact (Trace.done.mp h).1
  | cons sym γ ih =>
    cases sym with
    | token k =>
      obtain ⟨u, vs, rfl, hu, h⟩ := Trace.token.mp h
      exact (ih h).token hu
    | node nt =>
      obtain ⟨u, vs, a, rfl, hg, h⟩ := Trace.node.mp h
      exact (ih h).node hg.value

/-- What symbols that keep the loops and the places of `$` make together. -/
theorem trace_neutral {N : List Str} {left us : List Val} {γ : List Sym} {s s' : PState}
    (hγ : neutralSyms γ = true) (h : Trace PlainToken (Good N) left γ s us s') :
    Effect N s s.loops s.dollarsOk s' ∧ Shaped γ (us = ·) ∧
      (Tidy N → Quiet N s' → Nodes (InScope N s) γ us) := by
  induction γ generalizing left us s with
  | nil =>
    obtain ⟨rfl, rfl⟩ := Trace.done.mp h
    exact ⟨.refl N _, rfl, fun _ _ => trivial⟩
  | cons sym γ ih =>
    rw [neutralSyms, List.all_cons, Bool.and_eq_true] at hγ
    cases sym with
    | token k =>
      obtain ⟨u, vs, rfl, hu, h⟩ := Trace.token.mp h
      obtain ⟨he, hs, hin⟩ := ih hγ.2 h
      exact ⟨he, hs.token hu, hin⟩
    | node nt =>
      obtain ⟨u, vs, a, rfl, hg, h⟩ := Trace.node.mp h
      obtain ⟨he, hs, hin⟩ := ih hγ.2 h
      have hn := hg.neutral hγ.1
      refine ⟨hn.keep he, hs.node hg.value, fun hN hq => ?_⟩
      exact ⟨hg.inScope hN (he.quiet hq), (hin hN hq).imp fun v hv => hn.inScope hv⟩

/-! Names and complaints. -/

theorem slotIn_congr {N : List Str} (hN : Tidy N) {m w : Str} (hm : 0 ∉ m) (hw : 0 ∉ w)
    (h : mystrcasecmp m w = 0) : slotIn N m = slotIn N w := by
  have hf := (mystrcasecmp_eq_zero hm hw).mp h
  have hnames := hN.noNul
  clear hN
  induction N with
  | nil => rfl
  | cons n N ih =>
    have hn := hnames n List.mem_cons_self
    have hsame : (mystrcasecmp n m == 0) = (mystrcasecmp n w == 0) := by
      rw [Bool.eq_iff_iff, beq_iff_eq, beq_iff_eq, mystrcasecmp_eq_zero hn hm,
        mystrcasecmp_eq_zero hn hw, hf]
    have ih := ih fun n' hn' => hnames n' (List.mem_cons_of_mem n hn')
    rw [slotIn, slotIn] at ih ⊢
    rw [List.findIdx_cons, List.findIdx_cons, hsame, ih]

theorem findOrAddName_starts (w : Str) (names : List Str) :
    names <+: (findOrAddName w names).2 := by
  rw [findOrAddName]
  split
  · exact List.prefix_refl names
  · exact List.prefix_append names [w]

theorem findOrAddName_tidy {w : Str} (hw : 0 ∉ w) {names : List Str} (h : Tidy names) :
    Tidy (findOrAddName w names).2 := by
  rw [findOrAddName]
  split
  · exact h
  · next hnone =>
    have hne : ∀ n ∈ names, mystrcasecmp n w ≠ 0 := by
      intro n hn
      simpa using List.findIdx?_eq_none_iff.mp hnone n hn
    refine ⟨?_, ?_⟩
    · intro n hn
      obtain hn | hn := List.mem_append.mp hn
      · exact h.noNul n hn
      · rwa [List.mem_singleton.mp hn]
    · rw [List.pairwise_append]
      refine ⟨h.distinct, List.pairwise_singleton _ _, fun n hn w' hw' => ?_⟩
      rw [List.mem_singleton.mp hw']
      exact hne n hn

theorem findOrAddName_slot {w : Str} (hw : 0 ∉ w) {names N : List Str}
    (h : (findOrAddName w names).2 <+: N) :
    (findOrAddName w names).1 = slotIn N w ∧ (findOrAddName w names).1 < N.length := by
  rw [findOrAddName] at h ⊢
  split at h
  · next i hi =>
    obtain ⟨rest, rfl⟩ := h
    have hlt := (List.findIdx?_eq_some_iff_findIdx_eq.mp hi)
    rw [slotIn, List.findIdx_append, if_pos (hlt.2 ▸ hlt.1)]
    refine ⟨hlt.2.symm, ?_⟩
    show i < (names ++ rest).length
    rw [List.length_append]
    omega
  · next hnone =>
    obtain ⟨rest, rfl⟩ := h
    have hnames : names.findIdx (fun n => mystrcasecmp n w == 0) = names.length :=
      List.findIdx_eq_length.mpr (List.findIdx?_eq_none_iff.mp hnone)
    have hself : mystrcasecmp w w = 0 := (mystrcasecmp_eq_zero hw hw).mpr rfl
    rw [slotIn, List.append_assoc, List.findIdx_append, hnames, if_neg (Nat.lt_irrefl _)]
    constructor
    · simp [List.findIdx_cons, hself]
    · simp

theorem findId_effect {N : List Str} {w : Str} (hw : 0 ∉ w) (s : PState) :
    Effect N s s.loops s.dollarsOk (findId w s).2 :=
  ⟨findOrAddName_tidy hw, fun h => ⟨h.1, (findOrAddName_starts w s.names).trans h.2⟩, rfl, rfl⟩

theorem findId_slot {N : List Str} {w : Str} (hw : 0 ∉ w) {s : PState}
    (h : Quiet N (findId w s).2) :
    (findId w s).1 = slotIn N w ∧ (findId w s).1 < N.length :=
  findOrAddName_slot hw h.2

theorem not_quiet_error {N : List Str} (s : PState) (text : String) (name : Option Str) :
    ¬ Quiet N (s.error text name) := by
  intro h
  simpa [PState.error] using h.1

theorem error_effect {N : List Str} (s : PState) (text : String) (name : Option Str) :
    Effect N s s.loops s.dollarsOk (s.error text name) :=
  ⟨id, fun h => absurd h (not_quiet_error s text name), rfl, rfl⟩

theorem ite_effect {N : List Str} {s a b : PState} {l : List LoopEntry} {d : ℤ} {p : Prop}
    [Decidable p] (ha : Effect N s l d a) (hb : Effect N s l d b) :
    Effect N s l d (if p then a else b) := by
  split
  · exact ha
  · exact hb

theorem vetRest_effect {N : List Str} (seen : Bool) (sc : Scatter) (s : PState) :
    Effect N s s.loops s.dollarsOk (vetRest seen sc s) := by
  fun_induction vetRest seen sc s with
  | case1 => exact .refl N _
  | case2 seen id e next s ih => exact (ite_effect (error_effect s _ none) (.refl N s)).keep ih
  | case3 seen kind id e next s hk ih => exact ih

theorem vetScatter_effect {N : List Str} (sc : Scatter) (s : PState) :
    Effect N s s.loops s.dollarsOk (vetScatter sc s) :=
  (vetRest_effect false sc s).keep (ite_effect (error_effect _ _ none) (.refl N _))

theorem scatterFromArglist_effect {N : List Str} (a : ArgList) (s : PState) :
    Effect N s s.loops s.dollarsOk (scatterFromArglist a s).2 := by
  rw [scatterFromArglist]
  split
  · exact .refl N s
  · exact error_effect s _ none

theorem checkAssign_effect {N : List Str} (lhs : Expr) (s : PState) :
    Effect N s s.loops s.dollarsOk (checkAssign lhs s).2 := by
  rw [checkAssign.eq_def]
  split
  · exact error_effect s _ none
  · exact (scatterFromArglist_effect _ s).keep (vetScatter_effect _ _)
  · exact ite_effect (.refl N s) (error_effect s _ none)

theorem checkExcepts_effect {N : List Str} (arms : ExceptArms) (s : PState) :
    Effect N s s.loops s.dollarsOk (Parse.checkExcepts arms s) :=
  ite_effect (error_effect s _ none) (ite_effect (error_effect s _ none) (.refl N s))

theorem callOf_effect {N : List Str} (functions : List Str) (name : Str) (a : ArgList)
    (s : PState) : Effect N s s.loops s.dollarsOk (callOf functions name a s).2 := by
  rw [callOf]
  split
  · exact error_effect s _ _
  · exact .refl N s

theorem checkLoopName_effect {N : List Str} (name : Option Str) (isBreak : Bool) (s : PState) :
    Effect N s s.loops s.dollarsOk (checkLoopName name isBreak s) := by
  rw [checkLoopName.eq_def]
  split
  · split
    · exact .refl N s
    · exact ite_effect (error_effect s _ none) (error_effect s _ none)
  · exact ite_effect (.refl N s) (ite_effect (error_effect s _ _) (error_effect s _ _))

/-! The trees that actions build. -/

section
variable {N : ℕ} {dollar : Bool}

theorem scoped_addScatterItem {a b : Scatter} (ha : a.scoped N dollar = true)
    (hb : b.scoped N dollar = true) : (addScatterItem a b).scoped N dollar = true := by
  fun_induction addScatterItem a b with
  | case1 => exact hb
  | case2 kind id e next b ih =>
    rw [Scatter.scoped, Bool.and_eq_true] at ha ⊢
    exact ⟨ha.1, ih ha.2 hb⟩

theorem scoped_appendArgs {a b : ArgList} (ha : a.scoped N dollar = true)
    (hb : b.scoped N dollar = true) : (a.append b).scoped N dollar = true := by
  fun_induction ArgList.append a b with
  | case1 => exact hb
  | case2 kind e next b ih =>
    rw [ArgList.scoped, Bool.and_eq_true] at ha ⊢
    exact ⟨ha.1, ih ha.2 hb⟩

theorem scoped_targets {a : ArgList} (ha : a.scoped N dollar = true) {sc : Scatter}
    (h : scatterTargetsOf a = some sc) : sc.scoped N dollar = true := by
  fun_induction scatterTargetsOf a generalizing sc with
  | case1 =>
    cases h
    rfl
  | case2 kind slot next ih =>
    obtain ⟨rest, hrest, rfl⟩ := Option.map_eq_some_iff.mp h
    simp only [ArgList.scoped, Expr.scoped, Bool.and_eq_true] at ha
    simp only [Scatter.scoped, OptExpr.scoped, Bool.and_eq_true]
    exact ⟨⟨ha.1, trivial⟩, ih ha.2 hrest⟩
  | case3 => cases h

theorem isIndexBase_of_root {e : Expr} (h : isTarget (indexRoot e) = true) :
    e.isIndexBase = true := by
  fun_induction indexRoot e with
  | case1 base i ih => exact ih h
  | case2 e he => cases e <;> first | rfl | exact nomatch h

theorem isLvalue_of_root {e : Expr} (h : isTarget (assignRoot e) = true) :
    e.isLvalue = true := by
  cases e <;> exact isIndexBase_of_root h

theorem scoped_negate {x : Library} {e : Expr} (h : e.scoped N dollar = true) :
    (negate x e).scoped N dollar = true := by
  fun_cases negate x e with
  | case1 | case2 => rfl
  | case3 => exact h

end

theorem scatterFromArglist_scoped {N : List Str} {n : ℕ} {dollar : Bool} {a : ArgList} {s : PState}
    (ha : a.scoped n dollar = true) (h : Quiet N (scatterFromArglist a s).2) :
    (scatterFromArglist a s).1.scoped n dollar = true := by
  rw [scatterFromArglist] at h ⊢
  split at h
  · next sc hsc => exact scoped_targets ha hsc
  · exact absurd h (not_quiet_error s _ none)

theorem checkAssign_scoped {N : List Str} {n : ℕ} {dollar : Bool} {lhs rhs : Expr} {s : PState}
    (hl : lhs.scoped n dollar = true) (hr : rhs.scoped n dollar = true)
    (h : Quiet N (checkAssign lhs s).2) :
    (Expr.asgn (checkAssign lhs s).1 rhs).scoped n dollar = true := by
  rw [checkAssign.eq_def] at h ⊢
  split at h
  · exact absurd h (not_quiet_error s _ none)
  · have hq := (vetScatter_effect _ _).quiet h
    rw [Expr.scoped] at hl
    rw [Expr.scoped, Bool.and_eq_true]
    exact ⟨scatterFromArglist_scoped hl hq, hr⟩
  · split at h
    · next hroot =>
      have hne : ∀ sc, lhs ≠ .scatter sc := by
        rintro sc rfl
        exact nomatch hl
      rw [Expr.scoped_asgn _ _ hne, Bool.and_eq_true, Bool.and_eq_true]
      exact ⟨⟨isLvalue_of_root hroot, hl⟩, hr⟩
    · exact absurd h (not_quiet_error s _ none)

theorem callOf_scoped {N functions : List Str} {n : ℕ} {dollar : Bool} {name : Str} {a : ArgList}
    {s : PState} (ha : a.scoped n dollar = true) (h : Quiet N (callOf functions name a s).2) :
    (callOf functions name a s).1.scoped n dollar = true := by
  rw [callOf] at h ⊢
  split at h
  · exact absurd h (not_quiet_error s _ _)
  · next hf =>
    rw [if_neg hf]
    exact ha

/-! The rules, each with the states before and after its symbols. -/

section
variable {x : Library} {functions N : List Str} {r : Rule} {left us : List Val} {v : Val}
  {s s₁ s₂ : PState}

/-- The count of `$` is back where it was after the brackets. -/
theorem lower_effect {a b : PState} (h : Effect N s s.loops s.dollarsOk a)
    (h' : Effect N a a.loops (a.dollarsOk+1) b) :
    Effect N s s.loops s.dollarsOk {b with dollarsOk := b.dollarsOk-1} := by
  refine ⟨fun ht => h'.tidy (h.tidy ht), fun hq => h.quiet (h'.quiet hq),
    h'.loops.trans h.loops, ?_⟩
  show b.dollarsOk-1 = s.dollarsOk
  rw [h'.dollars, h.dollars, Int.add_sub_cancel]

theorem binaryKind_value {op : BinaryOp} {P : Val → Prop} (h : (binaryKind op).Value P) :
    ∃ u, P u := by
  cases op <;> exact h

theorem good_expr (hr : r.lhs = .expr) (h : Trace PlainToken (Good N) [] r.rhs s us s₁)
    (ha : r.action x functions left us s₁ = some (v, s₂)) : Good N left .expr s v s₂ := by
  cases r with
  | integer | float | string | object | error =>
    obtain ⟨he, ⟨u, rfl⟩, -⟩ := trace_neutral rfl h
    cases u <;> cases ha
    exact ⟨he, ⟨_, rfl⟩, fun _ _ => rfl⟩
  | id =>
    obtain ⟨he, ⟨w, hw, rfl⟩, -⟩ := trace_neutral rfl h
    cases ha
    refine ⟨he.keep (findId_effect hw s₁), ⟨_, rfl⟩, fun hN hq => ?_⟩
    exact decide_eq_true (findId_slot hw hq).2
  | dollarProp =>
    obtain ⟨he, ⟨_, w, -, rfl⟩, -⟩ := trace_neutral rfl h
    cases ha
    exact ⟨he, ⟨_, rfl⟩, fun _ _ => rfl⟩
  | prop =>
    obtain ⟨he, ⟨e, _, w, -, rfl⟩, hin⟩ := trace_neutral rfl h
    cases ha
    refine ⟨he, ⟨_, rfl⟩, fun hN hq => ?_⟩
    simpa [Nodes, InScope, Expr.scoped, Rule.rhs, t, c, n] using hin hN hq
  | propExpr =>
    obtain ⟨he, ⟨e, _, _, e', _, rfl⟩, hin⟩ := trace_neutral rfl h
    cases ha
    refine ⟨he, ⟨_, rfl⟩, fun hN hq => ?_⟩
    simpa [Nodes, InScope, Expr.scoped, Rule.rhs, t, c, n] using hin hN hq
  | verb =>
    obtain ⟨he, ⟨e, _, w, -, _, a, _, rfl⟩, hin⟩ := trace_neutral rfl h
    cases ha
    refine ⟨he, ⟨_, rfl⟩, fun hN hq => ?_⟩
    simpa [Nodes, InScope, Expr.scoped, Rule.rhs, t, c, n] using hin hN hq
  | dollarVerb =>
    obtain ⟨he, ⟨_, w, -, _, a, _, rfl⟩, hin⟩ := trace_neutral rfl h
    cases ha
    refine ⟨he, ⟨_, rfl⟩, fun hN hq => ?_⟩
    simpa [Nodes, InScope, Expr.scoped, Rule.rhs, t, c, n] using hin hN hq
  | verbExpr =>
    obtain ⟨he, ⟨e, _, _, e', _, _, a, _, rfl⟩, hin⟩ := trace_neutral rfl h
    cases ha
    refine ⟨he, ⟨_, rfl⟩, fun hN hq => ?_⟩
    simpa [Nodes, InScope, Expr.scoped, Rule.rhs, t, c, n, and_assoc] using hin hN hq
  | index =>
    obtain ⟨e, _, _, i, _, rfl⟩ := trace_shaped h
    cases ha
    obtain ⟨a, g₁, -, b, g₂, _, g₃, -, rfl⟩ := h
    refine ⟨lower_effect g₁.effect (g₂.effect.keep g₃.effect), ⟨_, rfl⟩, fun hN hq => ?_⟩
    have hi := g₃.inScope hN hq
    have he := g₁.inScope hN (g₂.effect.quiet (g₃.effect.quiet hq))
    simp only [InScope, Expr.scoped, Bool.and_eq_true] at he hi ⊢
    exact ⟨he, i.scoped_inside hi⟩
  | range =>
    obtain ⟨e, _, _, lo, _, hi, _, rfl⟩ := trace_shaped h
    cases ha
    obtain ⟨a, g₁, -, b, g₂, a', g₃, -, _, g₄, -, rfl⟩ := h
    refine ⟨lower_effect g₁.effect ((g₂.effect.keep g₃.effect).keep g₄.effect), ⟨_, rfl⟩,
      fun hN hq => ?_⟩
    have hq₃ := g₄.effect.quiet hq
    have he := g₁.inScope hN (g₂.effect.quiet (g₃.effect.quiet hq₃))
    have hlo := g₃.inScope hN hq₃
    have hhi := g₄.inScope hN hq
    simp only [InScope, Expr.scoped, Bool.and_eq_true] at he hlo hhi ⊢
    exact ⟨⟨he, lo.scoped_inside hlo⟩, hi.scoped_inside hhi⟩
  | dollar =>
    obtain ⟨he, ⟨_, rfl⟩, -⟩ := trace_neutral rfl h
    cases ha
    refine ⟨he.keep (ite_effect (error_effect s₁ _ none) (.refl N s₁)), ⟨_, rfl⟩, fun _ hq => ?_⟩
    split at hq
    · exact absurd hq (not_quiet_error s₁ _ none)
    · next hd =>
      rw [he.dollars] at hd
      exact decide_eq_true hd
  | assign =>
    obtain ⟨he, ⟨lhs, _, rhs, rfl⟩, hin⟩ := trace_neutral rfl h
    cases ha
    have hc := checkAssign_effect (N := N) lhs s₁
    refine ⟨he.keep hc, ⟨_, rfl⟩, fun hN hq => ?_⟩
    obtain ⟨hl, hr, -⟩ := hin hN (hc.quiet hq)
    exact checkAssign_scoped hl hr hq
  | scatterAssign =>
    obtain ⟨he, ⟨_, sc, _, _, rhs, rfl⟩, hin⟩ := trace_neutral rfl h
    cases ha
    have hc := vetScatter_effect (N := N) sc s₁
    refine ⟨he.keep hc, ⟨_, rfl⟩, fun hN hq => ?_⟩
    simpa [Nodes, InScope, Expr.scoped, Rule.rhs, t, c, n] using hin hN (hc.quiet hq)
  | call =>
    obtain ⟨he, ⟨w, -, _, a, _, rfl⟩, hin⟩ := trace_neutral rfl h
    cases ha
    have hc := callOf_effect (N := N) functions w a s₁
    refine ⟨he.keep hc, ⟨_, rfl⟩, fun hN hq => ?_⟩
    exact callOf_scoped (hin hN (hc.quiet hq)).1 hq
  | binary =>
    obtain ⟨he, ⟨l, hop⟩, hin⟩ := trace_neutral rfl h
    obtain ⟨_, r, rfl⟩ := binaryKind_value hop
    cases ha
    refine ⟨he, ⟨_, rfl⟩, fun hN hq => ?_⟩
    simpa [Nodes, InScope, Expr.scoped, Rule.rhs, t, c, n] using hin hN hq
  | and | or =>
    obtain ⟨he, ⟨l, _, r, rfl⟩, hin⟩ := trace_neutral rfl h
    cases ha
    refine ⟨he, ⟨_, rfl⟩, fun hN hq => ?_⟩
    simpa [Nodes, InScope, Expr.scoped, Rule.rhs, t, c, n] using hin hN hq
  | unaryMinus =>
    obtain ⟨he, ⟨_, e, rfl⟩, hin⟩ := trace_neutral rfl h
    cases ha
    exact ⟨he, ⟨_, rfl⟩, fun hN hq => scoped_negate (hin hN hq).1⟩
  | complement | not =>
    obtain ⟨he, ⟨_, e, rfl⟩, hin⟩ := trace_neutral rfl h
    cases ha
    exact ⟨he, ⟨_, rfl⟩, fun hN hq => (hin hN hq).1⟩
  | paren =>
    obtain ⟨he, ⟨_, e, _, rfl⟩, hin⟩ := trace_neutral rfl h
    cases ha
    exact ⟨he, ⟨_, rfl⟩, fun hN hq => (hin hN hq).1⟩
  | list =>
    obtain ⟨he, ⟨_, a, _, rfl⟩, hin⟩ := trace_neutral rfl h
    cases ha
    exact ⟨he, ⟨_, rfl⟩, fun hN hq => (hin hN hq).1⟩
  | condExpr =>
    obtain ⟨he, ⟨e, _, a, _, b, rfl⟩, hin⟩ := trace_neutral rfl h
    cases ha
    refine ⟨he, ⟨_, rfl⟩, fun hN hq => ?_⟩
    simpa [Nodes, InScope, Expr.scoped, Rule.rhs, t, c, n, and_assoc] using hin hN hq
  | «catch» =>
    obtain ⟨he, ⟨_, e, _, cs, d, _, rfl⟩, hin⟩ := trace_neutral rfl h
    cases ha
    refine ⟨he, ⟨_, rfl⟩, fun hN hq => ?_⟩
    simpa [Nodes, InScope, Expr.scoped, Rule.rhs, t, c, n, and_assoc] using hin hN hq
  | _ => cases hr

end

end LambdaMoo.Parse
