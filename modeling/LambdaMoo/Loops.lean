import LambdaMoo.Activation
import LambdaMoo.Positions

/-!
# Loops

The state of a loop over a list or a range is in two cells of the operand
stack, which the body does not see. The code of the loop binds the variable to
one value after the other, whatever the body does to the variables, and takes
the cells away at the end.
-/

set_option autoImplicit false

namespace LambdaMoo.Run
open LambdaMoo.Execute LambdaMoo.CodeGen

/-- A body is run once for each of some values, in order, each bound before; the run with number
`k` may know its number. -/
inductive Iterates {F : Type} (bind : F → Var → F) (body : ℕ → F → F → Prop) :
    ℕ → List Var → F → F → Prop
  | nil {k : ℕ} {f : F} : Iterates bind body k [] f f
  | cons {k : ℕ} {v : Var} {vs : List Var} {f g h : F} (hb : body k (bind f v) g)
      (hr : Iterates bind body (k+1) vs g h) : Iterates bind body k (v::vs) f h

theorem ofNat_toInt {n : ℕ} (h : n < 2^63) : (BitVec.ofNat 64 n).toInt = n := by
  rw [BitVec.toInt_eq_toNat_cond, BitVec.toNat_ofNat, Nat.mod_eq_of_lt (by omega),
    if_pos (by omega)]

theorem index_small (l : Elements) {k : ℕ} (hk : k ≤ l.list.length) : k+1 < 2^63 := by
  have hl := l.short
  omega

/-- The body runs from its first instruction to behind its last, above the cells for value number
`k`. -/
def Body {σ : Type} (other : Instr → Activ σ → Result (Outcome σ)) (v : Vec) (x y : ℕ)
    (cells : ℕ → List Var) (k : ℕ) (g g' : Frame σ) : Prop :=
  Steps other v.bc ⟨x, cells k, g⟩ ⟨y, cells k, g'⟩

/-- The stack while the body runs for element number `k`. -/
def listCells (l st : List Var) (k : ℕ) : List Var := .int (BitVec.ofNat 64 (k+2))::.list l::st

theorem forList_element {σ : Type} {id label x k : ℕ} {l st : List Var} {f : Frame σ} {n : Num}
    {w : Var} (hn : n.toInt = (k+1 : ℕ)) (hw : l[k]? = some w) :
    forList id label ⟨x, .int n::.list l::st, f⟩ =
      .ok (.next ⟨x, .int (n+1)::.list l::st, f.set id w⟩) := by
  have hk := (List.getElem?_eq_some_iff.mp hw).1
  have hle : ¬n.toInt > l.length := by omega
  have hone : 1 ≤ n.toInt := by omega
  have hi : (n.toInt-1).toNat = k := by omega
  simp only [forList, if_neg hle, if_pos hone, hi, hw]
  rfl

theorem forList_end {σ : Type} {id label x : ℕ} {l st : List Var} {f : Frame σ} {n : Num}
    (hn : n.toInt = (l.length+1 : ℕ)) :
    forList id label ⟨x, .int n::.list l::st, f⟩ = .ok (.next ⟨label, st, f⟩) := by
  have hgt : n.toInt > l.length := by omega
  simp only [forList, if_pos hgt]
  rfl

theorem ofNat_succ (k : ℕ) : BitVec.ofNat 64 k+1 = BitVec.ofNat 64 (k+1) :=
  (BitVec.ofNat_add k 1).symm

theorem drop_cons {l vs : List Var} {k : ℕ} {w : Var} (h : l.drop k = w::vs) :
    l[k]? = some w ∧ l.drop (k+1) = vs := by
  have hhead := congrArg List.head? h
  have htail := congrArg List.tail h
  rw [List.head?_drop] at hhead
  rw [List.tail_drop] at htail
  exact ⟨hhead, htail⟩

section Lists
variable {σ : Type} {other : Instr → Activ σ → Result (Outcome σ)} {v : Vec}
  {d id c x y a' : ℕ} (hf : v.instr d (.forList id a') c x) (hj : v.instr d (.jump c) y a')

include hf hj in
/-- The induction is over the elements that are left. -/
theorem forList_runs {l : Elements} {st : List Var} {f f' : Frame σ} {k : ℕ} {vs : List Var}
    (hd : l.list.drop k = vs) (hk : k ≤ l.list.length)
    (h : Iterates (fun g w => g.set id w) (Body other v x y (listCells l.list st)) k vs f f') :
    Steps other v.bc ⟨c, .int (BitVec.ofNat 64 (k+1))::.list l.list::st, f⟩ ⟨a', st, f'⟩ := by
  induction h with
  | nil =>
    obtain rfl := Nat.le_antisymm hk (List.drop_eq_nil_iff.mp hd)
    exact Steps.one hf (forList_end (ofNat_toInt (index_small l (Nat.le_refl _))))
  | @cons k w vs f g h hb hr ih =>
    obtain ⟨hw, hrest⟩ := drop_cons hd
    have hlt := (List.getElem?_eq_some_iff.mp hw).1
    have hnext : forList id a' ⟨x, .int (BitVec.ofNat 64 (k+1))::.list l.list::st, f⟩ =
        .ok (.next ⟨x, listCells l.list st k, f.set id w⟩) := by
      rw [forList_element (ofNat_toInt (index_small l hk)) hw, ofNat_succ]
      rfl
    refine Steps.trans (Steps.one hf hnext) (hb.trans ?_)
    exact Steps.trans (Steps.one hj rfl) (ih hrest hlt)

end Lists

/-! ## Ranges -/

/-- The values from one bound to another. -/
def rangeValues (mk : Num → Var) (lo hi : Num) : List Var :=
  (List.range (hi.toInt-lo.toInt+1).toNat).map fun k => mk (lo+BitVec.ofNat 64 k)

/-- The stack while the body runs for value number `k`: the lower bound has been raised, or at the
largest value the upper one lowered. -/
def rangeCells (mk : Num → Var) (lo hi : Num) (st : List Var) (k : ℕ) : List Var :=
  if (lo+BitVec.ofNat 64 k).toInt < maxint then mk hi::mk (lo+BitVec.ofNat 64 (k+1))::st
  else mk (hi-1)::mk (lo+BitVec.ofNat 64 k)::st

theorem add_ofNat_toInt {lo hi : Num} {k : ℕ} (h : lo.toInt+k ≤ hi.toInt) :
    (lo+BitVec.ofNat 64 k).toInt = lo.toInt+k := by
  have hlo : -2^63 ≤ lo.toInt := BitVec.le_toInt lo
  have hhi : hi.toInt < 2^63 := BitVec.toInt_lt
  rw [BitVec.toInt_add, BitVec.toInt_ofNat', Int.add_bmod_bmod]
  exact Int.bmod_eq_of_le (by omega) (by omega)

/-- The stack at the test before value number `k`. -/
def rangeTest (mk : Num → Var) (lo hi : Num) (st : List Var) : ℕ → List Var
  | 0 => mk hi::mk lo::st
  | k+1 => rangeCells mk lo hi st k

theorem le_maxint (n : Num) : n.toInt ≤ maxint := by
  have hn : n.toInt < 2^63 := BitVec.toInt_lt
  unfold maxint
  omega

theorem succ_toInt {n : Num} (h : n.toInt < maxint) : (n+1).toInt = n.toInt+1 := by
  have hn : -2^63 ≤ n.toInt := BitVec.le_toInt n
  unfold maxint at h
  rw [BitVec.toInt_add, show (1 : Num).toInt = 1 from rfl]
  exact Int.bmod_eq_of_le (by omega) (by omega)

theorem pred_toInt {n : Num} (h : 0 ≤ n.toInt) : (n-1).toInt = n.toInt-1 := by
  have hn : n.toInt < 2^63 := BitVec.toInt_lt
  rw [BitVec.toInt_sub, show (1 : Num).toInt = 1 from rfl]
  exact Int.bmod_eq_of_le (by omega) (by omega)

section Ranges
variable {mk : Num → Var} {lo hi : Num} {st : List Var} {k : ℕ}

/-- Up to the last value, only the lower bound has changed. -/
theorem rangeTest_value (h : lo.toInt+k ≤ hi.toInt) :
    rangeTest mk lo hi st k = mk hi::mk (lo+BitVec.ofNat 64 k)::st := by
  cases k with
  | zero => exact congrArg (fun n => mk hi::mk n::st) (BitVec.add_zero lo).symm
  | succ k =>
    have hk : lo.toInt+k ≤ hi.toInt := by omega
    have hlt : (lo+BitVec.ofNat 64 k).toInt < maxint := by
      have := le_maxint hi
      rw [add_ofNat_toInt hk]
      omega
    exact if_pos hlt

/-- After the last one the bounds have passed each other. -/
theorem rangeTest_end (mk : Num → Var) (st : List Var) (hk : k = (hi.toInt-lo.toInt+1).toNat) :
    ∃ lo' hi' : Num, rangeTest mk lo hi st k = mk hi'::mk lo'::st ∧ lo'.toInt > hi'.toInt := by
  cases k with
  | zero => exact ⟨lo, hi, rfl, by omega⟩
  | succ k =>
    have hlast : lo.toInt+k = hi.toInt := by omega
    have hvalue : lo+BitVec.ofNat 64 k = hi := by
      apply BitVec.eq_of_toInt_eq
      rw [add_ofNat_toInt (Int.le_of_eq hlast), hlast]
    by_cases hlt : hi.toInt < maxint
    · refine ⟨hi+1, hi, ?_, ?_⟩
      · rw [rangeTest, rangeCells, hvalue, if_pos hlt, ← ofNat_succ, ← BitVec.add_assoc, hvalue]
      · rw [succ_toInt hlt]
        omega
    · refine ⟨hi, hi-1, ?_, ?_⟩
      · rw [rangeTest, rangeCells, hvalue, if_neg hlt]
      · have hpos : 0 ≤ hi.toInt := by
          unfold maxint at hlt
          omega
        rw [pred_toInt hpos]
        omega

variable {σ : Type} {id label : ℕ}

theorem forBounds_value {a : Activ σ} (h : lo.toInt+k ≤ hi.toInt) :
    forBounds mk id label hi (lo+BitVec.ofNat 64 k) st a =
      .next ⟨a.pc, rangeCells mk lo hi st k, a.frame.set id (mk (lo+BitVec.ofNat 64 k))⟩ := by
  have hle : ¬(lo+BitVec.ofNat 64 k).toInt > hi.toInt := by
    rw [add_ofNat_toInt h]
    omega
  simp only [forBounds, if_neg hle, rangeCells, ← ofNat_succ, ← BitVec.add_assoc]
  split
  · rfl
  · rfl

theorem forRange_bounds (hmk : mk = Var.int ∨ mk = Var.obj) {x : ℕ} {f : Frame σ} :
    forRange id label ⟨x, mk hi::mk lo::st, f⟩ =
      .ok (forBounds mk id label hi lo st ⟨x, mk hi::mk lo::st, f⟩) := by
  rcases hmk with rfl | rfl
  · rfl
  · rfl

variable {other : Instr → Activ σ → Result (Outcome σ)} {v : Vec} {d c x y a' : ℕ}

/-- The induction is over the values that are left. -/
theorem forRange_runs (hmk : mk = Var.int ∨ mk = Var.obj)
    (hf : v.instr d (.forRange id a') c x) (hj : v.instr d (.jump c) y a') {f f' : Frame σ}
    {vs : List Var} (hd : (rangeValues mk lo hi).drop k = vs)
    (hk : k ≤ (hi.toInt-lo.toInt+1).toNat)
    (h : Iterates (fun g w => g.set id w) (Body other v x y (rangeCells mk lo hi st)) k vs f f') :
    Steps other v.bc ⟨c, rangeTest mk lo hi st k, f⟩ ⟨a', st, f'⟩ := by
  induction h with
  | @nil k f =>
    have hlen := List.drop_eq_nil_iff.mp hd
    rw [rangeValues, List.length_map, List.length_range] at hlen
    obtain ⟨lo', hi', hcells, hgt⟩ := rangeTest_end mk st (Nat.le_antisymm hk hlen)
    rw [hcells]
    apply Steps.one hf
    change forRange id a' _ = _
    rw [forRange_bounds hmk, forBounds, if_pos hgt]
  | @cons k w vs f g h hb hr ih =>
    obtain ⟨hw, hrest⟩ := drop_cons hd
    have hlt := (List.getElem?_eq_some_iff.mp hw).1
    rw [rangeValues, List.length_map, List.length_range] at hlt
    rw [rangeValues, List.getElem?_map, List.getElem?_range hlt] at hw
    obtain rfl := Option.some.inj hw
    have hle : lo.toInt+k ≤ hi.toInt := by omega
    have hnext : forRange id a' ⟨x, rangeTest mk lo hi st k, f⟩ =
        .ok (.next ⟨x, rangeCells mk lo hi st k, f.set id (mk (lo+BitVec.ofNat 64 k))⟩) := by
      rw [rangeTest_value hle, forRange_bounds hmk, forBounds_value hle]
    refine Steps.trans (Steps.one hf hnext) (hb.trans ?_)
    exact Steps.trans (Steps.one hj rfl) (ih hrest hlt)

end Ranges

theorem length_rangeCells {mk : Num → Var} {lo hi : Num} {st : List Var} {k : ℕ} :
    (rangeCells mk lo hi st k).length = st.length+2 := by
  unfold rangeCells
  split
  · rfl
  · rfl

/-- Where a vector has the code of a loop, the body runs once for each element or value, in order,
with two more values on the stack, and what the last run left of the variables is what the loop
leaves. -/
theorem loops_iterate {T : Tables} {v : Vec} {d : ℕ} {loops : List LoopAt} {a a' : ℕ} :
    (∀ (id : ℕ) (expr : Expr) (body : Stmts), CodeStmt T v d loops (.list id expr body) a a' →
      ∃ b c x y, CodeExpr T v d none expr a b ∧ v.instr (d+1) (.num 1) b c ∧
        v.instr (d+2) (.forList id a') c x ∧
        CodeStmts T v (d+2) (⟨some id, c, d+2, a', d⟩::loops) body x y ∧
        ∀ (σ : Type) (other : Instr → Activ σ → Result (Outcome σ)) (l : Elements)
          (st : List Var) (f f' : Frame σ),
          (∀ k, (listCells l.list st k).length = st.length+2) ∧
          (Iterates (fun g w => g.set id w) (Body other v x y (listCells l.list st)) 0 l.list f f' →
            Steps other v.bc ⟨b, .list l.list::st, f⟩ ⟨a', st, f'⟩)) ∧
    ∀ (id : ℕ) (lower upper : Expr) (body : Stmts),
      CodeStmt T v d loops (.range id lower upper body) a a' →
      ∃ b c x y, CodeExpr T v d none lower a b ∧ CodeExpr T v (d+1) none upper b c ∧
        v.instr (d+2) (.forRange id a') c x ∧
        CodeStmts T v (d+2) (⟨some id, c, d+2, a', d⟩::loops) body x y ∧
        ∀ (σ : Type) (other : Instr → Activ σ → Result (Outcome σ)) (mk : Num → Var),
          mk = Var.int ∨ mk = Var.obj → ∀ (lo hi : Num) (st : List Var) (f f' : Frame σ),
          (∀ k, (rangeCells mk lo hi st k).length = st.length+2) ∧
          (Iterates (fun g w => g.set id w) (Body other v x y (rangeCells mk lo hi st)) 0
            (rangeValues mk lo hi) f f' →
            Steps other v.bc ⟨c, mk hi::mk lo::st, f⟩ ⟨a', st, f'⟩) := by
  constructor
  · intro id expr body hcode
    obtain ⟨b, c, x, y, he, hn, hf, hb, hj⟩ := hcode
    refine ⟨b, c, x, y, he, hn, hf, hb, ?_⟩
    intro σ other l st f f'
    refine ⟨fun _ => rfl, fun h => ?_⟩
    have hone : Steps other v.bc ⟨b, .list l.list::st, f⟩ ⟨c, .int 1::.list l.list::st, f⟩ :=
      Steps.one hn rfl
    exact hone.trans (forList_runs hf hj rfl (Nat.zero_le _) h)
  · intro id lower upper body hcode
    obtain ⟨b, c, x, y, hlo, hhi, hf, hb, hj⟩ := hcode
    refine ⟨b, c, x, y, hlo, hhi, hf, hb, ?_⟩
    intro σ other mk hmk lo hi st f f'
    refine ⟨fun _ => length_rangeCells, fun h => ?_⟩
    exact forRange_runs hmk hf hj rfl (Nat.zero_le _) h

/-- `for x in (x) x = 7; endfor for y in [1..2] endfor`. -/
def loopsVec : Vec where
  bc := {
    numbytesLabel := 1
    numbytesLiteral := 1
    numbytesFork := 1
    numbytesVarName := 1
    numbytesStack := 1
    vector := [87, 124, 5, 20, 10, 130, 54, 111, 107, 2, 124, 125, 6, 21, 17, 107, 12, 110]
    size := 18
    maxStack := 3 }
  depth p := [some 0, some 1, some 2, none, none, some 2, some 3, some 3, some 2, none, some 0,
    some 1, some 2, none, none, some 2, none, some 0][p]?.join

def sevenBody : Stmts := .single (.expr (.asgn (.id 20) (.var (.int 7))))

theorem loopsVec_list : CodeStmt ⟨[], []⟩ loopsVec 0 [] (.list 20 (.id 20) sevenBody) 0 10 := by
  refine ⟨1, 2, 5, 8, ⟨rfl, rfl⟩, ⟨rfl, rfl⟩, ⟨rfl, rfl⟩, ?_, ⟨rfl, rfl⟩⟩
  refine ⟨8, ⟨7, ?_, ⟨rfl, rfl⟩⟩, rfl⟩
  refine ⟨5, 6, rfl, ?_, ⟨rfl, rfl⟩⟩
  exact .inl ⟨7, rfl, rfl, rfl, rfl⟩

theorem loopsVec_range : CodeStmt ⟨[], []⟩ loopsVec 0 []
    (.range 21 (.var (.int 1)) (.var (.int 2)) .nil) 10 17 := by
  refine ⟨11, 12, 15, 15, ?_, ?_, ⟨rfl, rfl⟩, rfl, ⟨rfl, rfl⟩⟩
  · exact .inl ⟨1, rfl, rfl, rfl, rfl⟩
  · exact .inl ⟨2, rfl, rfl, rfl, rfl⟩

theorem num_end {T : Tables} {v : Vec} {d d' a b b' : ℕ} {saved : Option ℕ} {n : Num}
    (h : CodeExpr T v d saved (.var (.int n)) a b) (h' : v.instr d' (.num n) a b')
    (hn : inOptimNumRange n = true) : b = b' := by
  rcases h with ⟨m, hm, hr, hi⟩ | ⟨hno, hslot⟩
  · exact hi.unique h'
  · rw [hno n rfl] at hn
    cases hn

theorem sevenBody_end {d y : ℕ} {loops : List LoopAt}
    (h : CodeStmts ⟨[], []⟩ loopsVec d loops sevenBody 5 y) : y = 8 := by
  obtain ⟨z, ⟨w, ⟨p, q, hp, hq, hr⟩, hpop⟩, rfl⟩ := h
  obtain rfl : 5 = p := hp
  obtain rfl : q = 6 := num_end hq ⟨rfl, rfl⟩ rfl
  obtain rfl : w = 7 := Vec.instr.unique hr (show loopsVec.instr 3 (.put true 20) 6 7 from ⟨rfl, rfl⟩)
  exact hpop.unique (show loopsVec.instr 3 .pop 7 8 from ⟨rfl, rfl⟩)

theorem sevenBody_runs {σ : Type} (other : Instr → Activ σ → Result (Outcome σ))
    (cells : ℕ → List Var) (k : ℕ) (g : Frame σ) :
    Body other loopsVec 5 8 cells k g (g.set 20 (.int 7)) := by
  have hnum : loopsVec.instr 2 (.num 7) 5 6 := ⟨rfl, rfl⟩
  have hput : loopsVec.instr 3 (.put true 20) 6 7 := ⟨rfl, rfl⟩
  exact Steps.trans (Steps.one hnum rfl) (Steps.one hput rfl)

/-- `for x in (x) x = 7; endfor` on a list of two elements, and `for y in [1..2] endfor`. -/
theorem loops_iterate_seven :
    Steps (fun _ _ => .error (.undefined "")) loopsVec.bc
      ⟨1, [.list [.int 5, .int 6]], ⟨fun _ => .none, ()⟩⟩
      ⟨10, [], ((((⟨fun _ => .none, ()⟩ : Frame Unit).set 20 (.int 5)).set 20 (.int 7)).set 20
        (.int 6)).set 20 (.int 7)⟩ ∧
    Steps (fun _ _ => .error (.undefined "")) loopsVec.bc
      ⟨12, [.obj 2, .obj 1], ⟨fun _ => .none, ()⟩⟩
      ⟨17, [], ((⟨fun _ => .none, ()⟩ : Frame Unit).set 21 (.obj 1)).set 21 (.obj 2)⟩ := by
  constructor
  · obtain ⟨b, c, x, y, he, hn, hf, hb, h⟩ := loops_iterate.1 _ _ _ loopsVec_list
    obtain rfl : b = 1 := Vec.instr.unique he (show loopsVec.instr 0 (.push 20) 0 1 from ⟨rfl, rfl⟩)
    obtain rfl : c = 2 := hn.unique (show loopsVec.instr 1 (.num 1) 1 2 from ⟨rfl, rfl⟩)
    obtain rfl : x = 5 :=
      hf.unique (show loopsVec.instr 2 (.forList 20 10) 2 5 from ⟨rfl, rfl⟩)
    obtain rfl : y = 8 := sevenBody_end hb
    apply (h Unit (fun _ _ => .error (.undefined "")) ⟨[.int 5, .int 6], by decide⟩ []
      ⟨fun _ => .none, ()⟩ _).2
    exact .cons (sevenBody_runs _ _ _ _) (.cons (sevenBody_runs _ _ _ _) .nil)
  · obtain ⟨b, c, x, y, hlo, hhi, hf, hb, h⟩ := loops_iterate.2 _ _ _ _ loopsVec_range
    obtain rfl : b = 11 := num_end hlo ⟨rfl, rfl⟩ rfl
    obtain rfl : c = 12 := num_end hhi ⟨rfl, rfl⟩ rfl
    obtain rfl : x = y := hb
    apply (h Unit (fun _ _ => .error (.undefined "")) .obj (.inr rfl) 1 2 []
      ⟨fun _ => .none, ()⟩ _).2
    exact .cons .refl (.cons .refl .nil)

end LambdaMoo.Run
