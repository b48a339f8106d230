import LambdaMoo.ScatterTargets

/-!
# Scattering assignment

After the targets that got elements have been bound, the defaults of the other
optional targets are run: their blocks follow one another, and `EOP_SCATTER`
jumps to the first that is needed.
-/

set_option autoImplicit false

namespace LambdaMoo.Run
open LambdaMoo.Execute LambdaMoo.CodeGen

/-! ## Defaults -/

/-- An optional target without a piece has a default. -/
def Defaulted (kind : ScatterKind) (e : OptExpr) (piece : List Var) : Prop :=
  kind = .optional ∧ e ≠ .none ∧ piece = []

/-- The defaults of the targets without a piece are run one after the other: the code of each from
its first instruction to behind its last, and the value goes into the variable. -/
inductive Defaults {σ : Type} (other : Instr → Activ σ → Result (Outcome σ)) (T : Tables) (v : Vec)
    (d : ℕ) (saved : Option ℕ) (st : List Var) :
    Scatter → List (List Var) → List (ℕ×ℕ) → Frame σ → Frame σ → Prop
  | nil {f : Frame σ} : Defaults other T v d saved st .nil [] [] f f
  | skip {kind : ScatterKind} {id : ℕ} {e : OptExpr} {next : Scatter} {piece : List Var}
      {ps : List (List Var)} {target : ℕ×ℕ} {ts : List (ℕ×ℕ)} {f f' : Frame σ}
      (hd : ¬Defaulted kind e piece) (hr : Defaults other T v d saved st next ps ts f f') :
      Defaults other T v d saved st (.cons kind id e next) (piece::ps) (target::ts) f f'
  | run {id label b : ℕ} {e : Expr} {next : Scatter} {ps : List (List Var)} {ts : List (ℕ×ℕ)}
      {f g f' : Frame σ} {w : Var} (hc : CodeExpr T v d saved e label b)
      (he : Steps other v.bc ⟨label, st, f⟩ ⟨b, w::st, g⟩)
      (hr : Defaults other T v d saved st next ps ts (g.set id w) f') :
      Defaults other T v d saved st (.cons .optional id (.some e) next) ([]::ps)
        ((id, label)::ts) f f'

section Defaults
variable {σ : Type} {other : Instr → Activ σ → Result (Outcome σ)} {T : Tables} {v : Vec}
  {d : ℕ} {saved : Option ℕ} {st : List Var}

theorem fetch_pop {bc : Bytecodes} {c : ℕ} (h : bc.vector[c]? = some (Opcode.toByte .pop)) :
    bc.fetch c = some (.pop, c+1) := by
  rw [Bytecodes.fetch, h]
  rfl

/-- The short form of `OP_PUT` takes the `OP_POP` along, the long one leaves it. -/
theorem put_pop {id b c x : ℕ} {ready : Bool} {w : Var} {g : Frame σ}
    (hput : v.instr d (.put ready id) b c) (hpop : v.instr d .pop c x) :
    Steps other v.bc ⟨b, w::st, g⟩ ⟨x, st, g.set id w⟩ := by
  by_cases hf : ready = true ∧ v.bc.vector[c]? = some (Opcode.toByte .pop)
  · have hx : c+1 = x := by
      have := (fetch_pop hf.2).symm.trans hpop.1
      simpa using this
    apply Steps.one hput
    change put v.bc ready id ⟨c, w::st, g⟩ = _
    simp only [put, if_pos hf, hx]
    rfl
  · have hstep : exec other v.bc (.put ready id) ⟨c, w::st, g⟩ =
        .ok (.next ⟨c, w::st, g.set id w⟩) := by
      change put v.bc ready id ⟨c, w::st, g⟩ = _
      simp only [put, if_neg hf]
      rfl
    exact Steps.trans (Steps.one hput hstep) (Steps.one hpop rfl)

theorem Defaults.skipped {kind : ScatterKind} {id : ℕ} {e : OptExpr} {next : Scatter}
    {piece : List Var} {ps : List (List Var)} {target : ℕ×ℕ} {ts : List (ℕ×ℕ)} {f f' : Frame σ}
    (h : Defaults other T v d saved st (.cons kind id e next) (piece::ps) (target::ts) f f')
    (hd : ¬Defaulted kind e piece) : Defaults other T v d saved st next ps ts f f' := by
  cases h with
  | skip _ hr => exact hr
  | run _ _ _ => exact absurd ⟨rfl, nofun, rfl⟩ hd

theorem Defaults.block {id a b c x : ℕ} {e : Expr} {next : Scatter} {ps : List (List Var)}
    {ts : List (ℕ×ℕ)} {f f' : Frame σ}
    (h : Defaults other T v d saved st (.cons .optional id (.some e) next) ([]::ps) ((id, a)::ts)
      f f')
    (hc : CodeExpr T v d saved e a b) (hput : v.instr (d+1) (.put (isReady id) id) b c)
    (hpop : v.instr (d+1) .pop c x) : ∃ g, Steps other v.bc ⟨a, st, f⟩ ⟨x, st, g⟩ ∧
      Defaults other T v d saved st next ps ts g f' := by
  cases h with
  | skip hd _ => exact absurd ⟨rfl, nofun, rfl⟩ hd
  | run hc' he hr =>
    obtain rfl := codeExpr_unique e hc hc'
    exact ⟨_, he.trans (put_pop hput hpop), hr⟩

/-- When no optional target is left that gets a piece, the blocks follow one another. -/
theorem defaults_fall (sc : Scatter) {surplus a a' : ℕ} {ts : List (ℕ×ℕ)} {l : List Var}
    {f f' : Frame σ} (hc : CodeDefaults T v d saved sc ts a a')
    (h : Defaults other T v d saved st sc (pieces (shares surplus 0 sc) l) ts f f') :
    Steps other v.bc ⟨a, st, f⟩ ⟨a', st, f'⟩ := by
  match sc with
  | .nil =>
    obtain ⟨rfl, rfl⟩ := hc
    cases h
    exact .refl
  | .cons .optional id (.some e) next =>
    obtain ⟨rest, b, c, x, rfl, hcode, hput, hpop, hnext⟩ := hc
    obtain ⟨g, hg, hr⟩ := h.block hcode hput hpop
    exact hg.trans (defaults_fall next hnext hr)
  | .cons .optional id .none next =>
    obtain ⟨rest, rfl, hnext⟩ := hc
    exact defaults_fall next hnext (h.skipped fun hd => hd.2.1 rfl)
  | .cons .required id e next | .cons .rest id e next =>
    obtain ⟨rest, rfl, hnext⟩ := hc
    exact defaults_fall next hnext (h.skipped fun hd => nomatch hd.1)

/-- The defaults are entered at the first one that is needed. -/
theorem defaults_enter (sc : Scatter) {surplus avail a a' : ℕ} {ts : List (ℕ×ℕ)} {l : List Var}
    {f f' : Frame σ} (hc : CodeDefaults T v d saved sc ts a a') (ha : 2 ≤ a)
    (hl : (shares surplus avail sc).sum ≤ l.length)
    (h : Defaults other T v d saved st sc (pieces (shares surplus avail sc) l) ts f f') :
    Steps other v.bc ⟨if entry sc (pieces (shares surplus avail sc) l) ts = 0 then a'
      else entry sc (pieces (shares surplus avail sc) l) ts, st, f⟩ ⟨a', st, f'⟩ := by
  cases sc with
  | nil =>
    cases h
    exact .refl
  | cons kind id e next =>
    cases kind with
    | optional =>
      cases e with
      | none =>
        cases avail with
        | zero | succ avail =>
          obtain ⟨rest, rfl, hnext⟩ := hc
          rw [shares, List.sum_cons] at hl
          exact defaults_enter next hnext ha (by rw [List.length_drop]; omega)
            (h.skipped fun hd => hd.2.1 rfl)
      | some e =>
        obtain ⟨rest, b, c, x, rfl, hcode, hput, hpop, hnext⟩ := hc
        cases avail with
        | zero =>
          obtain ⟨g, hg, hr⟩ := h.block hcode hput hpop
          have hentry : entry (.cons .optional id (.some e) next)
              (pieces (shares surplus 0 (.cons .optional id (.some e) next)) l) ((id, a)::rest)
                = a := rfl
          rw [hentry, if_neg (by omega)]
          exact hg.trans (defaults_fall next hnext hr)
        | succ avail =>
          have hle : a ≤ x := ((codeExpr_lt e hcode).trans (hput.lt.trans hpop.lt)).le
          rw [shares, List.sum_cons] at hl
          cases l with
          | nil =>
            rw [List.length_nil] at hl
            omega
          | cons w l =>
            rw [List.length_cons] at hl
            exact defaults_enter (l := l) next hnext (ha.trans hle) (by omega)
              (h.skipped fun hd => absurd hd.2.2 (List.cons_ne_nil _ _))
    | required | rest =>
      obtain ⟨rest, rfl, hnext⟩ := hc
      rw [shares, List.sum_cons] at hl
      exact defaults_enter next hnext ha (by rw [List.length_drop]; omega)
        (h.skipped fun hd => absurd hd.1 (by decide))

end Defaults

/-! ## The instruction -/

/-- The elements beyond those of the other targets. -/
def surplusOf (sc : Scatter) (l : List Var) : ℕ := l.length-Scatter.nreq sc-Scatter.nopt sc

/-- The elements that each target gets. -/
def piecesOf (sc : Scatter) (l : List Var) : List (List Var) :=
  pieces (shares (surplusOf sc l) (l.length-Scatter.nreq sc) sc) l

/-- A length for which there is no `E_ARGS`. -/
def Suits (sc : Scatter) (l : List Var) : Prop :=
  Scatter.nreq sc ≤ l.length ∧ (sc.rests = 0 → l.length ≤ sc.length)

theorem sum_suits {sc : Scatter} {l : List Var} (hr : sc.rests ≤ 1) (hs : Suits sc l) :
    (shares (surplusOf sc l) (l.length-Scatter.nreq sc) sc).sum = l.length := by
  have hk := length_kinds sc
  obtain ⟨h1, h2⟩ := hs
  rw [sum_shares, surplusOf]
  rcases Nat.le_one_iff_eq_zero_or_eq_one.mp hr with h0 | h0
  · have := h2 h0
    rw [h0, Nat.zero_mul]
    omega
  · rw [h0, Nat.one_mul]
    omega

section Instruction
variable {σ : Type} {sc : Scatter} {ts : List (ℕ×ℕ)} {l : Elements} {pc done : ℕ}
  {st : List Var} {f : Frame σ}

theorem scatter_args (h : ¬Suits sc l.list) :
    scatter sc.length (Scatter.nreq sc) (Scatter.rest sc) ts done ⟨pc, .list l.list::st, f⟩ =
      .ok (.raise .args ⟨done, .err .args::st, f⟩) := by
  have hc : l.list.length < Scatter.nreq sc ∨
      ¬¬Scatter.rest sc > sc.length ∧ l.list.length > sc.length := by
    rw [not_not, rest_gt]
    by_contra hn
    exact h ⟨by omega, fun h0 => by omega⟩
  simp only [scatter, if_pos hc]
  rfl

theorem before_first (hr : sc.rests ≤ 1) (hl : Labelled sc ts) (h : Suits sc l.list) :
    Before l.list (surplusOf sc l.list) (Scatter.rest sc)
      (if ¬Scatter.rest sc > sc.length ∧ l.list.length ≥ sc.length then
        (l.list.length : ℤ)-sc.length+1 else 0) sc ts 1 0 (l.list.length-Scatter.nreq sc)
      ⟨0, l.list.length-Scatter.nreq sc, f, 0⟩ := by
  have hk := length_kinds sc
  have hreq := h.1
  have hrest : RestAt (Scatter.rest sc) 1 sc := by
    have := restAt_rest (n := 0) hr
    rwa [Nat.zero_add] at this
  refine ⟨hl, hrest, hr, Nat.le_refl 1, l.short, rfl, ?_, ?_, ?_⟩
  · exact (Int.ofNat_sub hreq).symm
  · rw [Nat.zero_add, sum_suits hr h]
  · intro h0
    have hle : ¬Scatter.rest sc > sc.length := rest_gt.not.mpr h0
    rw [surplusOf]
    constructor
    · split
      · omega
      · omega
    · intro hs
      exact ⟨rfl, by omega⟩

/-- The targets get their pieces, and the next instruction is the first default that is needed. -/
theorem scatter_next (hr : sc.rests ≤ 1) (hl : Labelled sc ts) (h : Suits sc l.list) :
    scatter sc.length (Scatter.nreq sc) (Scatter.rest sc) ts done ⟨pc, .list l.list::st, f⟩ =
      .ok (.next ⟨if entry sc (piecesOf sc l.list) ts = 0 then done
        else entry sc (piecesOf sc l.list) ts, .list l.list::st,
        assign sc (piecesOf sc l.list) f⟩) := by
  have hk := length_kinds sc
  have hc : ¬(l.list.length < Scatter.nreq sc ∨
      ¬¬Scatter.rest sc > sc.length ∧ l.list.length > sc.length) := by
    rw [not_not, rest_gt]
    rintro (hlt | ⟨h0, hgt⟩)
    · have := h.1
      omega
    · have := h.2 h0
      omega
  have hbefore := before_first (f := f) hr hl h
  obtain ⟨s', hs, hf, hd⟩ := scatterTargets_run sc hbefore
  simp only [scatter, if_neg hc, hs]
  change Except.ok _ = _
  rw [hf, hd]
  rfl

end Instruction

/-- Where a vector has the code of a scattering assignment, the instruction raises an error if the
value is no list or has the wrong length, and else binds every element once, from the left, and the
defaults of the targets that got none are run in order. -/
theorem scattering_binds {T : Tables} {v : Vec} {d : ℕ} {saved : Option ℕ} {sc : Scatter}
    {rhs : Expr} {a a' : ℕ} (hv : sc.vet = true)
    (hcode : CodeExpr T v d saved (.asgn (.scatter sc) rhs) a a') :
    ∃ b c ts, CodeExpr T v d saved rhs a b ∧
      v.instr (d+1) (.scatter sc.length (Scatter.nreq sc) (Scatter.rest sc) ts a') b c ∧
      CodeDefaults T v (d+1) saved sc ts c a' ∧
      ∀ (σ : Type) (other : Instr → Activ σ → Result (Outcome σ)) (st : List Var) (f : Frame σ),
        (∀ w : Var, (∀ l, w ≠ .list l) →
          step other v.bc ⟨b, w::st, f⟩ = .ok (.raise .type ⟨a', .err .type::st, f⟩)) ∧
        ∀ l : Elements,
          (step other v.bc ⟨b, .list l.list::st, f⟩ = .ok (.raise .args ⟨a', .err .args::st, f⟩) ↔
            l.list.length < Scatter.nreq sc ∨ sc.rests = 0 ∧ l.list.length > sc.length) ∧
          (Suits sc l.list →
            (piecesOf sc l.list).flatten = l.list ∧
            (piecesOf sc l.list).map List.length =
              shares (surplusOf sc l.list) (l.list.length-Scatter.nreq sc) sc ∧
            ∃ dest, step other v.bc ⟨b, .list l.list::st, f⟩ =
                .ok (.next ⟨dest, .list l.list::st, assign sc (piecesOf sc l.list) f⟩) ∧
              ∀ f', Defaults other T v (d+1) saved (.list l.list::st) sc (piecesOf sc l.list) ts
                  (assign sc (piecesOf sc l.list) f) f' →
                Steps other v.bc ⟨dest, .list l.list::st, assign sc (piecesOf sc l.list) f⟩
                  ⟨a', .list l.list::st, f'⟩) := by
  obtain ⟨b, c, ts, hrhs, hinstr, hdefaults⟩ := hcode
  have hr : sc.rests ≤ 1 := by
    simp only [Scatter.vet, Bool.and_eq_true, decide_eq_true_eq] at hv
    exact hv.1.1
  have hc : 2 ≤ c := by
    have h1 := codeExpr_lt rhs hrhs
    have h2 := hinstr.lt
    omega
  have hl := labelled_defaults hdefaults hc
  refine ⟨b, c, ts, hrhs, hinstr, hdefaults, ?_⟩
  intro σ other st f
  have hstep : ∀ w : Var, step other v.bc ⟨b, w::st, f⟩ =
      scatter sc.length (Scatter.nreq sc) (Scatter.rest sc) ts a' ⟨c, w::st, f⟩ := by
    intro w
    rw [step, hinstr.1]
    rfl
  constructor
  · intro w hw
    rw [hstep]
    cases w with
    | list l => exact absurd rfl (hw l)
    | _ => rfl
  · intro l
    rw [hstep]
    constructor
    · constructor
      · intro h
        by_contra hn
        have hs : Suits sc l.list := ⟨by omega, fun h0 => by omega⟩
        rw [scatter_next hr hl hs] at h
        cases h
      · rintro h
        apply scatter_args
        rintro ⟨h1, h2⟩
        rcases h with h | ⟨h0, h⟩
        · omega
        · have := h2 h0
          omega
    · intro hs
      have hsum := sum_suits hr hs
      refine ⟨flatten_pieces hsum, lengths_pieces hsum.le, _, scatter_next hr hl hs, ?_⟩
      intro f' hf
      exact defaults_enter sc hdefaults hc hsum.le hf

/-- The targets of `{a, ?b = 7, @c, ?d} = e`. -/
def fourTargets : Scatter :=
  .cons .required 20 .none (.cons .optional 21 (.some (.var (.int 7))) (.cons .rest 23 .none
    (.cons .optional 22 .none .nil)))

def fourVec : Vec where
  bc := {
    numbytesLabel := 1
    numbytesLiteral := 1
    numbytesFork := 1
    numbytesVarName := 1
    numbytesStack := 1
    vector := [91, 112, 13, 4, 1, 3, 20, 0, 21, 15, 23, 0, 22, 1, 18, 130, 55, 111, 111, 110]
    size := 20
    maxStack := 2 }
  depth p := if p = 0 then some 0 else if p ≤ 15 then some 1 else some 2

theorem fourVec_code :
    CodeExpr ⟨[], []⟩ fourVec 0 none (.asgn (.scatter fourTargets) (.id 24)) 0 18 := by
  refine ⟨1, 15, [(20, 0), (21, 15), (23, 0), (22, 1)], ⟨rfl, rfl⟩, ⟨rfl, rfl⟩, _, rfl, ?_⟩
  refine ⟨_, 16, 17, 18, rfl, ?_, ⟨rfl, rfl⟩, ⟨rfl, rfl⟩, _, rfl, _, rfl, rfl, rfl⟩
  exact .inl ⟨7, rfl, rfl, rfl, rfl⟩

/-- A list of one element leaves both optional targets without one. -/
theorem scattering_binds_default :
    (∃ dest, step (fun _ _ => .error (.undefined "")) fourVec.bc
        ⟨1, [.list [.int 5]], (⟨fun _ => .none, ()⟩ : Frame Unit)⟩ =
      .ok (.next ⟨dest, [.list [.int 5]],
        ((⟨fun _ => .none, ()⟩ : Frame Unit).set 20 (.int 5)).set 23 (.list [])⟩) ∧
      Steps (fun _ _ => .error (.undefined "")) fourVec.bc
        ⟨dest, [.list [.int 5]],
          ((⟨fun _ => .none, ()⟩ : Frame Unit).set 20 (.int 5)).set 23 (.list [])⟩
        ⟨18, [.list [.int 5]], (((⟨fun _ => .none, ()⟩ : Frame Unit).set 20 (.int 5)).set 23
          (.list [])).set 21 (.int 7)⟩) := by
  obtain ⟨b, c, ts, hrhs, hinstr, hdefaults, h⟩ := scattering_binds rfl fourVec_code
  obtain rfl : b = 1 := Vec.instr.unique hrhs (show fourVec.instr 0 (.push 24) 0 1 from ⟨rfl, rfl⟩)
  have hfetch := hinstr.1
  obtain rfl : ts = [(20, 0), (21, 15), (23, 0), (22, 1)] := by
    have heq : some (Instr.scatter 4 1 3 [(20, 0), (21, 15), (23, 0), (22, 1)] 18, 15) =
      some (Instr.scatter 4 1 3 ts 18, c) := hfetch
    simp only [Option.some.injEq, Prod.mk.injEq, Instr.scatter.injEq] at heq
    exact heq.1.2.2.2.1.symm
  obtain ⟨-, h⟩ := h Unit (fun _ _ => .error (.undefined "")) [] ⟨fun _ => .none, ()⟩
  obtain ⟨-, -, dest, hstep, hsteps⟩ := (h ⟨[.int 5], by decide⟩).2 ⟨by decide, by decide⟩
  refine ⟨dest, hstep, hsteps _ ?_⟩
  have hseven : fourVec.instr 1 (.num 7) 15 16 := ⟨rfl, rfl⟩
  exact .skip (fun hd => nomatch hd.1) (.run (.inl ⟨7, rfl, rfl, hseven⟩) (Steps.one hseven rfl)
    (.skip (fun hd => nomatch hd.1) (.skip (fun hd => hd.2.1 rfl) .nil)))

end LambdaMoo.Run
