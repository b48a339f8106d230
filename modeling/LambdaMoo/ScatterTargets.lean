import LambdaMoo.Activation
import LambdaMoo.HeaderBytes
import LambdaMoo.Positions

/-!
# Targets of a scattering assignment

The elements of the list are cut into consecutive pieces, one for each target:
one element for a required target and for the optional targets as far as there
are elements beyond the required ones, what is left for the rest target, and
none for the other optional targets. The loop of `EOP_SCATTER` gives each
target its piece.
-/

set_option autoImplicit false

namespace LambdaMoo.Run
open LambdaMoo.Execute LambdaMoo.CodeGen

def Scatter.nopt : Scatter → ℕ
  | .nil => 0
  | .cons kind _ _ next => (if kind = .optional then 1 else 0)+Scatter.nopt next

theorem length_kinds (sc : Scatter) :
    sc.length = Scatter.nreq sc+Scatter.nopt sc+sc.rests := by
  match sc with
  | .nil => rfl
  | .cons kind id expr next =>
    have ih := length_kinds next
    simp only [Scatter.length, Scatter.nreq, Scatter.nopt, Scatter.rests]
    cases kind with
    | required | optional | rest =>
      simp only [reduceCtorEq, if_true, if_false]
      omega

/-- How many elements each target takes where `avail` optional targets get one. -/
def shares (surplus : ℕ) : ℕ → Scatter → List ℕ
  | _, .nil => []
  | avail, .cons .required _ _ next => 1::shares surplus avail next
  | avail, .cons .rest _ _ next => surplus::shares surplus avail next
  | 0, .cons .optional _ _ next => 0::shares surplus 0 next
  | avail+1, .cons .optional _ _ next => 1::shares surplus avail next

/-- Consecutive pieces of a list. -/
def pieces : List ℕ → List Var → List (List Var)
  | [], _ => []
  | n::ns, l => l.take n::pieces ns (l.drop n)

/-- A piece of one element goes into the variable, and the rest target gets a list. -/
def assign {σ : Type} : Scatter → List (List Var) → Frame σ → Frame σ
  | .cons .rest id _ next, piece::ps, f => assign next ps (f.set id (.list piece))
  | .cons _ id _ next, [x]::ps, f => assign next ps (f.set id x)
  | .cons _ _ _ next, _::ps, f => assign next ps f
  | _, _, f => f

theorem flatten_pieces {ns : List ℕ} {l : List Var} (h : ns.sum = l.length) :
    (pieces ns l).flatten = l := by
  induction ns generalizing l with
  | nil => exact (List.eq_nil_of_length_eq_zero h.symm).symm
  | cons n ns ih =>
    have hrest : ns.sum = (l.drop n).length := by
      rw [List.length_drop, ← h, List.sum_cons]
      omega
    rw [pieces, List.flatten_cons, ih hrest, List.take_append_drop]

theorem lengths_pieces {ns : List ℕ} {l : List Var} (h : ns.sum ≤ l.length) :
    (pieces ns l).map List.length = ns := by
  induction ns generalizing l with
  | nil => rfl
  | cons n ns ih =>
    rw [List.sum_cons] at h
    have hrest : ns.sum ≤ (l.drop n).length := by
      rw [List.length_drop]
      omega
    rw [pieces, List.map_cons, ih hrest, List.length_take, Nat.min_eq_left (by omega)]

theorem sum_shares {surplus avail : ℕ} (sc : Scatter) : (shares surplus avail sc).sum =
    Scatter.nreq sc+min avail (Scatter.nopt sc)+sc.rests*surplus := by
  fun_induction shares surplus avail sc with
  | case1 => simp [Scatter.nreq, Scatter.nopt, Scatter.rests]
  | case2 avail id expr next ih | case4 id expr next ih | case5 avail id expr next ih =>
    simp only [List.sum_cons, ih, Scatter.nreq, Scatter.nopt, Scatter.rests, reduceCtorEq, if_true,
      if_false, Nat.zero_add]
    omega
  | case3 avail id expr next ih =>
    simp only [List.sum_cons, ih, Scatter.nreq, Scatter.nopt, Scatter.rests, reduceCtorEq, if_true,
      if_false, Nat.zero_add, Nat.add_mul]
    omega

/-! ## Operands of the targets -/

/-- The labels tell the kinds of the targets apart, save for a rest target. -/
def Labelled : Scatter → List (ℕ×ℕ) → Prop
  | .nil, ts => ts = []
  | .cons .optional id (.some _) next, ts =>
    ∃ label rest, ts = (id, label)::rest ∧ 2 ≤ label ∧ Labelled next rest
  | .cons .optional id .none next, ts => ∃ rest, ts = (id, 1)::rest ∧ Labelled next rest
  | .cons .required id _ next, ts | .cons .rest id _ next, ts =>
    ∃ rest, ts = (id, 0)::rest ∧ Labelled next rest

theorem Labelled.optional {id : ℕ} {e : OptExpr} {next : Scatter} {ts : List (ℕ×ℕ)}
    (h : Labelled (.cons .optional id e next) ts) : ∃ label ts', ts = (id, label)::ts' ∧
      label ≠ 0 ∧ (label = 1 ↔ e = .none) ∧ Labelled next ts' := by
  cases e with
  | none =>
    obtain ⟨ts', rfl, h⟩ := h
    exact ⟨1, ts', rfl, Nat.one_ne_zero, by simp, h⟩
  | some e =>
    obtain ⟨label, ts', rfl, hlab, h⟩ := h
    exact ⟨label, ts', rfl, by omega, by simp; omega, h⟩

theorem labelled_defaults {T : Tables} {v : Vec} {d : ℕ} {saved : Option ℕ} {sc : Scatter}
    {ts : List (ℕ×ℕ)} {a a' : ℕ} (h : CodeDefaults T v d saved sc ts a a') (ha : 2 ≤ a) :
    Labelled sc ts := by
  fun_induction Labelled sc ts generalizing a with
  | case1 ts => exact h.1
  | case2 id expr next ts ih =>
    obtain ⟨rest, b, c, x, rfl, he, hput, hpop, hnext⟩ := h
    have hle : a ≤ x := ((codeExpr_lt expr he).trans (hput.lt.trans hpop.lt)).le
    exact ⟨a, rest, rfl, ha, ih _ hnext (ha.trans hle)⟩
  | case3 id next ts ih | case4 id expr next ts ih | case5 id expr next ts ih =>
    obtain ⟨rest, rfl, hnext⟩ := h
    exact ⟨rest, rfl, ih _ hnext ha⟩

/-- The rest targets among those from number `i` on are the ones with number `rest`. -/
def RestAt (rest : ℕ) : ℕ → Scatter → Prop
  | _, .nil => True
  | i, .cons kind _ _ next => (kind = .rest ↔ i = rest) ∧ RestAt rest (i+1) next

theorem restAt_none {sc : Scatter} {rest i : ℕ} (h : sc.rests = 0)
    (hr : rest < i ∨ i+sc.length ≤ rest) : RestAt rest i sc := by
  match sc with
  | .nil => trivial
  | .cons kind id expr next =>
    rw [Scatter.rests] at h
    rw [Scatter.length] at hr
    have hk : kind ≠ .rest := by
      rintro rfl
      simp at h
    refine ⟨⟨fun h => absurd h hk, fun h => ?_⟩, restAt_none ?_ ?_⟩
    · omega
    · omega
    · omega

/-- The header byte for the rest target tells whether there is one. -/
theorem rest_gt {sc : Scatter} : Scatter.rest sc > sc.length ↔ sc.rests = 0 := by
  rw [Scatter.rest, ← restFrom_none 0 sc]
  cases h : Scatter.restFrom 0 sc with
  | none => simp
  | some r =>
    have := restFrom_le 0 sc h
    simp only [Option.getD_some, reduceCtorEq, iff_false]
    omega

theorem lt_restFrom {sc : Scatter} {n r : ℕ} (h : Scatter.restFrom n sc = some r) : n < r := by
  match sc with
  | .nil => cases h
  | .cons kind id expr next =>
    rw [Scatter.restFrom, Option.or_eq_some_iff] at h
    rcases h with h | ⟨-, h⟩
    · exact (Nat.lt_succ_self n).trans (lt_restFrom h)
    · cases kind with
      | rest => exact Option.some.inj h ▸ Nat.lt_succ_self n
      | required | optional => cases h

/-- With one rest target, `rest` is its number. -/
theorem restAt_rest {sc : Scatter} {n : ℕ} (h : sc.rests ≤ 1) :
    RestAt ((Scatter.restFrom n sc).getD (n+sc.length+1)) (n+1) sc := by
  cases sc with
  | nil => trivial
  | cons kind id expr next =>
    by_cases hk : kind = .rest
    · subst hk
      have hnone : next.rests = 0 := by
        simp only [Scatter.rests, if_true] at h
        omega
      rw [Scatter.restFrom, (restFrom_none (n+1) next).mpr hnone]
      exact ⟨⟨fun _ => rfl, fun _ => rfl⟩, restAt_none hnone (.inl (Nat.lt_succ_self _))⟩
    · have hnext : next.rests ≤ 1 := by
        simp only [Scatter.rests, if_neg hk] at h
        omega
      have ih := restAt_rest (n := n+1) hnext
      rw [Scatter.restFrom, if_neg hk, Option.or_none, Scatter.length,
        show n+(next.length+1)+1 = n+1+next.length+1 by omega]
      refine ⟨⟨fun hr => absurd hr hk, fun h => ?_⟩, ih⟩
      cases hr : Scatter.restFrom (n+1) next with
      | none =>
        rw [hr, Option.getD_none] at h
        omega
      | some r =>
        have := lt_restFrom hr
        rw [hr, Option.getD_some] at h
        omega

/-! ## The targets in order -/

/-- Where the defaults start: the label of the first optional target without a piece, or 0. -/
def entry : Scatter → List (List Var) → List (ℕ×ℕ) → ℕ
  | .cons .optional _ (.some _) _, []::_, (_, label)::_ => label
  | .cons _ _ _ next, _::ps, _::ts => entry next ps ts
  | _, _, _ => 0

theorem pieces_one {l : List Var} {used : ℕ} {x : Var} {ns : List ℕ} (h : l[used]? = some x) :
    pieces (1::ns) (l.drop used) = [x]::pieces ns (l.drop (used+1)) := by
  rw [pieces, List.drop_drop, List.take_one, List.head?_drop, h]
  rfl

theorem listElement_drop {l : List Var} {used : ℕ} {i : ℤ} {x : Var} (h : l[used]? = some x)
    (hi : i = used+1) : listElement l i = .ok x := by
  have hone : 1 ≤ i := by omega
  have hnat : (i-1).toNat = used := by omega
  rw [listElement, if_pos hone, hnat, h]

theorem sublist_rest {l : List Var} {i : ℕ} {surplus : ℕ} (hi : 1 ≤ i)
    (h : surplus ≠ 0 → i-1+surplus ≤ l.length) (hl : l.length < 2^31) :
    sublist l i (i+surplus-1) = .ok ((l.drop (i-1)).take surplus) := by
  by_cases h0 : surplus = 0
  · subst h0
    rw [sublist, if_pos (by omega), List.take_zero]
    rfl
  · have hle := h h0
    have hfits : FitsInt ((i : ℤ)+surplus-1-i+1) := ⟨by omega, by omega⟩
    rw [sublist, if_neg (by omega), if_neg (not_not.mpr hfits),
      copyElements_eq (by omega) (by omega) (by omega)]
    congr 3
    · omega
    · omega

section Targets
variable {σ : Type} {l : List Var} {rest i : ℕ} {nrest : ℤ} {s : Scattering σ}

theorem scatterTarget_required {id : ℕ} {x : Var} (hne : i ≠ rest)
    (hx : listElement l (i+s.offset) = .ok x) :
    scatterTarget l rest nrest i (id, 0) s = .ok { s with frame := s.frame.set id x } := by
  simp only [scatterTarget, if_neg hne, if_true, hx]
  rfl

theorem scatterTarget_filled {id label : ℕ} {x : Var} (hne : i ≠ rest) (hlab : label ≠ 0)
    (ha : s.noptAvail > 0) (hx : listElement l (i+s.offset) = .ok x) :
    scatterTarget l rest nrest i (id, label) s =
      .ok { s with noptAvail := s.noptAvail-1, frame := s.frame.set id x } := by
  simp only [scatterTarget, if_neg hne, if_neg hlab, if_pos ha, hx]
  rfl

theorem scatterTarget_unfilled {id label : ℕ} (hne : i ≠ rest) (hlab : label ≠ 0)
    (ha : ¬s.noptAvail > 0) : scatterTarget l rest nrest i (id, label) s =
      .ok { s with
        offset := s.offset-1
        dest := if s.dest = 0 ∧ label ≠ 1 then label else s.dest } := by
  simp only [scatterTarget, if_neg hne, if_neg hlab, if_neg ha]
  rfl

theorem scatterTarget_rest {id label : ℕ} {xs : List Var} (hi : i = rest)
    (hx : sublist l i (i+nrest-1) = .ok xs) : scatterTarget l rest nrest i (id, label) s =
      .ok { s with frame := s.frame.set id (.list xs), offset := s.offset+(nrest-1) } := by
  simp only [scatterTarget, if_pos hi, hx]
  rfl

/-- The loop before target number `i`, with `used` elements bound. -/
structure Before (l : List Var) (surplus rest : ℕ) (nrest : ℤ) (sc : Scatter) (ts : List (ℕ×ℕ))
    (i used avail : ℕ) (s : Scattering σ) : Prop where
  labelled : Labelled sc ts
  restAt : RestAt rest i sc
  rests : sc.rests ≤ 1
  pos : 1 ≤ i
  short : l.length < 2^31
  offset : i+s.offset = used+1
  noptAvail : s.noptAvail = avail
  sum : used+(shares surplus avail sc).sum = l.length
  surplus : sc.rests ≠ 0 →
    nrest = surplus ∧ (surplus ≠ 0 → used+1 = i ∧ Scatter.nopt sc ≤ avail)

variable {surplus used avail id : ℕ} {e : OptExpr} {next : Scatter} {ts : List (ℕ×ℕ)}

theorem Before.element {sc : Scatter} (h : Before l surplus rest nrest sc ts i used avail s)
    (hs : 0 < (shares surplus avail sc).sum) : ∃ x, l[used]? = some x ∧
      listElement l (i+s.offset) = .ok x := by
  have hsum := h.sum
  have hlt : used < l.length := by omega
  exact ⟨l[used], List.getElem?_eq_getElem hlt,
    listElement_drop (List.getElem?_eq_getElem hlt) h.offset⟩

theorem Before.required
    (h : Before l surplus rest nrest (.cons .required id e next) ts i used avail s) :
    ∃ x ts', l[used]? = some x ∧ ts = (id, 0)::ts' ∧
      scatterTarget l rest nrest i (id, 0) s = .ok { s with frame := s.frame.set id x } ∧
      Before l surplus rest nrest next ts' (i+1) (used+1) avail
        { s with frame := s.frame.set id x } := by
  have hsum := h.sum
  have hoff := h.offset
  rw [shares, List.sum_cons] at hsum
  obtain ⟨x, hx, hel⟩ := h.element (by rw [shares, List.sum_cons]; omega)
  obtain ⟨ts', rfl, hl⟩ := h.labelled
  have hne : i ≠ rest := fun hi => nomatch h.restAt.1.mpr hi
  have hrests : next.rests = (Scatter.cons .required id e next).rests := (Nat.zero_add _).symm
  have hnopt : Scatter.nopt next = Scatter.nopt (.cons .required id e next) :=
    (Nat.zero_add _).symm
  refine ⟨x, ts', hx, rfl, scatterTarget_required hne hel, hl, h.restAt.2, hrests ▸ h.rests,
    Nat.le_add_left _ _, h.short, ?_, h.noptAvail, ?_, ?_⟩
  · push_cast
    omega
  · omega
  · intro hr
    rw [hrests] at hr
    refine ⟨(h.surplus hr).1, fun hs => ?_⟩
    have := (h.surplus hr).2 hs
    rw [hnopt]
    omega

theorem Before.filled
    (h : Before l surplus rest nrest (.cons .optional id e next) ts i used (avail+1) s) :
    ∃ x label ts', l[used]? = some x ∧ ts = (id, label)::ts' ∧
      scatterTarget l rest nrest i (id, label) s =
        .ok { s with noptAvail := s.noptAvail-1, frame := s.frame.set id x } ∧
      Before l surplus rest nrest next ts' (i+1) (used+1) avail
        { s with noptAvail := s.noptAvail-1, frame := s.frame.set id x } := by
  have hsum := h.sum
  have hoff := h.offset
  have hav := h.noptAvail
  rw [shares, List.sum_cons] at hsum
  obtain ⟨x, hx, hel⟩ := h.element (by rw [shares, List.sum_cons]; omega)
  obtain ⟨label, ts', rfl, hlab, -, hl⟩ := h.labelled.optional
  have hne : i ≠ rest := fun hi => nomatch h.restAt.1.mpr hi
  have hrests : next.rests = (Scatter.cons .optional id e next).rests := (Nat.zero_add _).symm
  have hnopt : Scatter.nopt (.cons .optional id e next) = 1+Scatter.nopt next := rfl
  refine ⟨x, label, ts', hx, rfl, scatterTarget_filled hne hlab (by omega) hel, hl, h.restAt.2,
    hrests ▸ h.rests, Nat.le_add_left _ _, h.short, ?_, ?_, ?_, ?_⟩
  · push_cast
    omega
  · change s.noptAvail-1 = avail
    omega
  · omega
  · intro hr
    rw [hrests] at hr
    refine ⟨(h.surplus hr).1, fun hs => ?_⟩
    have := (h.surplus hr).2 hs
    omega

theorem Before.unfilled
    (h : Before l surplus rest nrest (.cons .optional id e next) ts i used 0 s) :
    ∃ label ts', ts = (id, label)::ts' ∧ label ≠ 0 ∧ (label = 1 ↔ e = .none) ∧
      scatterTarget l rest nrest i (id, label) s = .ok { s with
        offset := s.offset-1
        dest := if s.dest = 0 ∧ label ≠ 1 then label else s.dest } ∧
      Before l surplus rest nrest next ts' (i+1) used 0 { s with
        offset := s.offset-1
        dest := if s.dest = 0 ∧ label ≠ 1 then label else s.dest } := by
  have hsum := h.sum
  have hoff := h.offset
  have hav := h.noptAvail
  rw [shares, List.sum_cons] at hsum
  obtain ⟨label, ts', rfl, hlab, hone, hl⟩ := h.labelled.optional
  have hne : i ≠ rest := fun hi => nomatch h.restAt.1.mpr hi
  have hrests : next.rests = (Scatter.cons .optional id e next).rests := (Nat.zero_add _).symm
  have hnopt : Scatter.nopt (.cons .optional id e next) = 1+Scatter.nopt next := rfl
  refine ⟨label, ts', rfl, hlab, hone, scatterTarget_unfilled hne hlab (by omega), hl, h.restAt.2,
    hrests ▸ h.rests, Nat.le_add_left _ _, h.short, ?_, hav, ?_, ?_⟩
  · push_cast
    omega
  · omega
  · intro hr
    rw [hrests] at hr
    refine ⟨(h.surplus hr).1, fun hs => ?_⟩
    have := (h.surplus hr).2 hs
    omega

theorem Before.remaining
    (h : Before l surplus rest nrest (.cons .rest id e next) ts i used avail s) :
    ∃ ts', ts = (id, 0)::ts' ∧ scatterTarget l rest nrest i (id, 0) s = .ok { s with
        frame := s.frame.set id (.list ((l.drop used).take surplus))
        offset := s.offset+(nrest-1) } ∧
      Before l surplus rest nrest next ts' (i+1) (used+surplus) avail { s with
        frame := s.frame.set id (.list ((l.drop used).take surplus))
        offset := s.offset+(nrest-1) } := by
  have hsum := h.sum
  have hoff := h.offset
  have hpos := h.pos
  rw [shares, List.sum_cons] at hsum
  obtain ⟨ts', rfl, hl⟩ := h.labelled
  have hcount : (Scatter.cons .rest id e next).rests = 1+next.rests := rfl
  have hrests := h.rests
  obtain ⟨hn, hu⟩ := h.surplus (by omega)
  have hxs : sublist l i (i+nrest-1) = .ok ((l.drop used).take surplus) := by
    rw [hn, sublist_rest hpos (fun hs => by have := hu hs; omega) h.short]
    by_cases hs : surplus = 0
    · rw [hs, List.take_zero, List.take_zero]
    · have := (hu hs).1
      rw [show i-1 = used by omega]
  refine ⟨ts', rfl, scatterTarget_rest (h.restAt.1.mp rfl) hxs, hl, h.restAt.2, by omega,
    Nat.le_add_left _ _, h.short, ?_, h.noptAvail, by omega, fun hr => by omega⟩
  rw [hn]
  push_cast
  omega

/-- Each target gets its piece, and the loop remembers where the defaults start. -/
theorem scatterTargets_run (sc : Scatter) {i used avail : ℕ} {ts : List (ℕ×ℕ)}
    {s : Scattering σ} (h : Before l surplus rest nrest sc ts i used avail s) :
    ∃ s', scatterTargets l rest nrest i ts s = .ok s' ∧
      s'.frame = assign sc (pieces (shares surplus avail sc) (l.drop used)) s.frame ∧
      s'.dest = if s.dest = 0 then entry sc (pieces (shares surplus avail sc) (l.drop used)) ts
        else s.dest := by
  match sc, avail with
  | .nil, avail =>
    obtain rfl : ts = [] := h.labelled
    refine ⟨s, rfl, rfl, ?_⟩
    split
    · assumption
    · rfl
  | .cons .required id e next, avail =>
    obtain ⟨x, ts', hx, rfl, ht, hb⟩ := h.required
    obtain ⟨s', hs, hf, hd⟩ := scatterTargets_run next hb
    rw [scatterTargets, ht, shares, pieces_one hx]
    exact ⟨s', hs, hf, hd⟩
  | .cons .optional id e next, avail+1 =>
    obtain ⟨x, label, ts', hx, rfl, ht, hb⟩ := h.filled
    obtain ⟨s', hs, hf, hd⟩ := scatterTargets_run next hb
    rw [scatterTargets, ht, shares, pieces_one hx]
    refine ⟨s', hs, hf, ?_⟩
    cases e with
    | none | some e => exact hd
  | .cons .optional id e next, 0 =>
    obtain ⟨label, ts', rfl, hlab, hone, ht, hb⟩ := h.unfilled
    obtain ⟨s', hs, hf, hd⟩ := scatterTargets_run next hb
    rw [scatterTargets, ht, shares, pieces]
    refine ⟨s', hs, hf, ?_⟩
    dsimp only at hd
    cases e with
    | none =>
      obtain rfl : label = 1 := hone.mpr rfl
      simp only [ne_eq, not_true_eq_false, and_false, if_false] at hd
      exact hd
    | some e =>
      have hne : label ≠ 1 := fun h => nomatch hone.mp h
      simp only [ne_eq, hne, not_false_eq_true, and_true] at hd
      rw [hd]
      by_cases h0 : s.dest = 0
      · simp only [h0, if_true, if_neg hlab]
        rfl
      · simp only [if_neg h0]
  | .cons .rest id e next, avail =>
    obtain ⟨ts', rfl, ht, hb⟩ := h.remaining
    obtain ⟨s', hs, hf, hd⟩ := scatterTargets_run next hb
    rw [scatterTargets, ht, shares, pieces, List.drop_drop]
    exact ⟨s', hs, hf, hd⟩

end Targets

end LambdaMoo.Run
