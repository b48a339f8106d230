import Mathlib.Data.Finset.Card
import Mathlib.Data.List.Nodup
import Mathlib.Logic.Relation

/-!
# Forests with intrusive lists

Each node of a heap points up to its parent, to its first child and to its
next sibling; an address `nil` stands for no node. A list of children is
changed in place by the two loops that splice a node out of it and onto its
end. `Listed` says that the lists agree with an ownership of the nodes.
-/

set_option autoImplicit false

namespace Forest

structure Links (α : Type) where
  up : α
  first : α
  next : α
  deriving DecidableEq, Repr

abbrev Heap (α : Type) := α → Option (Links α)

section
variable {α : Type} [DecidableEq α]

def modify (h : Heap α) (i : α) (f : Links α → Links α) : Heap α :=
  fun j => if j = i then (h j).map f else h j

def setFirst (h : Heap α) (i x : α) : Heap α := modify h i fun l => { l with first := x }
def setNext (h : Heap α) (i x : α) : Heap α := modify h i fun l => { l with next := x }
def setUp (h : Heap α) (i x : α) : Heap α := modify h i fun l => { l with up := x }

variable (nil : α)

/-- The loop of a removal: the node before `what` is linked to the one after it. -/
def unlinkAfter (h : Heap α) (what : α) : ℕ → α → Option (Heap α)
  | 0, _ => none
  | fuel+1, lid =>
    if lid = nil then some h
    else do
      let l ← h lid
      if l.next = what then return setNext h lid (← h what).next
      else unlinkAfter h what fuel l.next

def remove (fuel : ℕ) (h : Heap α) (owner what : α) : Option (Heap α) := do
  let l ← h owner
  let h' ← if l.first = what then some (setFirst h owner (← h what).next)
    else unlinkAfter nil h what fuel l.first
  return setNext h' what nil

def lastFrom (h : Heap α) : ℕ → α → Option α
  | 0, _ => none
  | fuel+1, lid => do
    let l ← h lid
    if l.next = nil then return lid else lastFrom h fuel l.next

def append (fuel : ℕ) (h : Heap α) (owner what : α) : Option (Heap α) := do
  let l ← h owner
  let h' ← if l.first = nil then some (setFirst h owner what)
    else (lastFrom nil h fuel l.first).map fun lid => setNext h lid what
  return setNext h' what nil

/-- The nodes that a list visits. -/
inductive Chain (h : Heap α) : α → List α → Prop
  | nil : Chain h nil []
  | cons {i : α} {l : Links α} {xs : List α} (hi : h i = some l) (hne : i ≠ nil)
      (hxs : Chain h l.next xs) : Chain h i (i::xs)

def walk (h : Heap α) : ℕ → α → Option (List α)
  | 0, _ => none
  | fuel+1, i =>
    if i = nil then some []
    else do
      let l ← h i
      return i::(← walk h fuel l.next)

/-- Each list visits, once each, the nodes that its owner owns. -/
structure Listed (h : Heap α) (own : α → α) : Prop where
  nothing : h nil = none
  kids : ∀ i l, h i = some l → ∃ xs, Chain nil h l.first xs ∧ xs.Nodup ∧
    ∀ c, c ∈ xs ↔ (h c).isSome = true ∧ own c = i

end

section
variable {α : Type} {nil : α} {h h' : Heap α}

namespace Chain

theorem congr {i : α} {xs : List α} (hc : Chain nil h i xs)
    (heq : ∀ x ∈ xs, (h' x).map (·.next) = (h x).map (·.next)) : Chain nil h' i xs := by
  induction hc with
  | nil => exact .nil
  | @cons i l xs hi hne hxs ih =>
    have hx := heq i List.mem_cons_self
    rw [hi, Option.map_some, Option.map_eq_some_iff] at hx
    obtain ⟨l', hl', hnext⟩ := hx
    refine .cons hl' hne ?_
    rw [hnext]
    exact ih fun x hx => heq x (List.mem_cons_of_mem i hx)

theorem unique {i : α} {xs ys : List α} (hx : Chain nil h i xs) (hy : Chain nil h i ys) :
    xs = ys := by
  induction hx generalizing ys with
  | nil =>
    cases hy with
    | nil => rfl
    | cons _ hne _ => exact absurd rfl hne
  | @cons i l xs hi hne hxs ih =>
    cases hy with
    | nil => exact absurd rfl hne
    | cons hi' _ hys =>
      rw [hi, Option.some.injEq] at hi'
      subst hi'
      rw [ih hys]

theorem head {i x : α} {xs : List α} (hc : Chain nil h i (x::xs)) : i = x := by
  cases hc
  rfl

end Chain

variable [DecidableEq α]

theorem modify_self {i : α} {l : Links α} (hi : h i = some l) (f : Links α → Links α) :
    modify h i f i = some (f l) := by simp [modify, hi]

theorem modify_ne {i j : α} (hj : j ≠ i) (f : Links α → Links α) : modify h i f j = h j := by
  simp [modify, hj]

@[simp] theorem modify_isSome (i j : α) (f : Links α → Links α) :
    (modify h i f j).isSome = (h j).isSome := by
  by_cases hj : j = i <;> simp [modify, hj]

theorem modify_none {i j : α} {f : Links α → Links α} (hj : h j = none) : modify h i f j = none := by
  simp [modify, hj]

/-- A change that keeps a field keeps it everywhere. -/
theorem modify_field {β : Type} (g : Links α → β) (f : Links α → Links α)
    (hg : ∀ l, g (f l) = g l) (i j : α) : (modify h i f j).map g = (h j).map g := by
  by_cases hj : j = i
  · subst hj
    cases hl : h j with
    | none => rw [modify_none hl]
    | some l => rw [modify_self hl, Option.map_some, Option.map_some, hg]
  · rw [modify_ne hj]

namespace Chain

theorem walk_eq {i : α} {xs : List α} (hc : Chain nil h i xs) {fuel : ℕ}
    (hf : xs.length < fuel) : walk nil h fuel i = some xs := by
  induction hc generalizing fuel with
  | nil =>
    obtain ⟨n, rfl⟩ := Nat.exists_eq_add_one_of_ne_zero (Nat.ne_of_gt hf)
    simp [walk]
  | @cons i l xs hi hne hxs ih =>
    obtain ⟨n, rfl⟩ := Nat.exists_eq_add_one_of_ne_zero (Nat.ne_of_gt (Nat.zero_lt_of_lt hf))
    have := ih (show xs.length < n by simpa using hf)
    simp [walk, hne, hi, this]

/-- Linking past a node takes it out of the list. -/
theorem unlink {i p what : α} {lw : Links α} {pre post : List α}
    (hc : Chain nil h i (pre++p::what::post)) (hn : (pre++p::what::post).Nodup)
    (hw : h what = some lw) : Chain nil (setNext h p lw.next) i (pre++p::post) := by
  induction pre generalizing i with
  | nil =>
    cases hc with
    | cons hp hne hrest =>
      cases hrest with
      | cons hw' hne' hpost =>
        rw [hw, Option.some.injEq] at hw'
        subst hw'
        refine .cons (modify_self hp _) hne (hpost.congr fun x hx => ?_)
        have hxp : x ≠ p := by
          rintro rfl
          simp only [List.nil_append, List.nodup_cons, List.mem_cons] at hn
          exact hn.1 (.inr hx)
        rw [setNext, modify_ne hxp]
  | cons q pre ih =>
    cases hc with
    | cons hq hne hrest =>
      have hn' := List.nodup_cons.mp hn
      have hqp : q ≠ p := by
        rintro rfl
        exact hn'.1 (by simp)
      refine .cons ?_ hne (ih hrest hn'.2)
      rw [setNext, modify_ne hqp, hq]

/-- Linking the last node to a new one puts this at the end. -/
theorem link {i p what : α} {lw : Links α} {pre : List α} (hc : Chain nil h i (pre++[p]))
    (hn : (pre++[p]).Nodup) (hw : h what = some lw) (hwn : what ≠ nil)
    (hmem : what ∉ pre++[p]) :
    Chain nil (setNext (setNext h p what) what nil) i (pre++[p, what]) := by
  induction pre generalizing i with
  | nil =>
    cases hc with
    | @cons _ lp _ hp hne hrest =>
      have hpw : p ≠ what := fun heq => hmem (by simp [heq])
      refine .cons (l := { lp with next := what }) ?_ hne (.cons (l := { lw with next := nil }) ?_
        hwn .nil)
      · rw [setNext, modify_ne hpw, setNext, modify_self hp]
      · rw [setNext, modify_self (by rw [setNext, modify_ne hpw.symm, hw])]
  | cons q pre ih =>
    cases hc with
    | cons hq hne hrest =>
      have hn' := List.nodup_cons.mp hn
      have hqp : q ≠ p := by
        rintro rfl
        exact hn'.1 (by simp)
      have hqw : q ≠ what := fun heq => hmem (by simp [heq])
      refine .cons ?_ hne (ih hrest hn'.2 fun hx => hmem (List.mem_cons_of_mem q hx))
      rw [setNext, modify_ne hqw, setNext, modify_ne hqp, hq]

end Chain

theorem unlinkAfter_eq {i p what : α} {lw : Links α} {pre post : List α}
    (hc : Chain nil h i (pre++p::what::post)) (hn : (pre++p::what::post).Nodup)
    (hw : h what = some lw) {fuel : ℕ} (hf : pre.length < fuel) :
    unlinkAfter nil h what fuel i = some (setNext h p lw.next) := by
  induction pre generalizing i fuel with
  | nil =>
    obtain ⟨n, rfl⟩ := Nat.exists_eq_add_one_of_ne_zero (Nat.ne_of_gt hf)
    cases hc with
    | cons hp hne hrest =>
      cases hrest with
      | cons _ _ _ => simp [unlinkAfter, hne, hp, hw]
  | cons q pre ih =>
    obtain ⟨n, rfl⟩ := Nat.exists_eq_add_one_of_ne_zero (Nat.ne_of_gt (Nat.zero_lt_of_lt hf))
    cases hc with
    | @cons _ lq _ hq hne hrest =>
      have hn' := List.nodup_cons.mp hn
      have hnext : lq.next ≠ what := by
        rintro rfl
        cases pre with
        | nil => simp [Chain.head hrest] at hn'
        | cons r pre => simp [Chain.head hrest] at hn'
      simp [unlinkAfter, hne, hq, hnext, ih hrest hn'.2 (by simpa using hf)]

theorem lastFrom_eq {i p : α} {pre : List α} (hc : Chain nil h i (pre++[p]))
    {fuel : ℕ} (hf : pre.length < fuel) : lastFrom nil h fuel i = some p := by
  induction pre generalizing i fuel with
  | nil =>
    obtain ⟨n, rfl⟩ := Nat.exists_eq_add_one_of_ne_zero (Nat.ne_of_gt hf)
    cases hc with
    | cons hp hne hrest =>
      cases hrest
      simp [lastFrom, hp]
  | cons q pre ih =>
    obtain ⟨n, rfl⟩ := Nat.exists_eq_add_one_of_ne_zero (Nat.ne_of_gt (Nat.zero_lt_of_lt hf))
    cases hc with
    | @cons _ lq _ hq hne hrest =>
      have hnext : lq.next ≠ nil := by
        intro heq
        rw [heq] at hrest
        cases pre with
        | nil => cases hrest with | cons _ h _ => exact h rfl
        | cons r pre => cases hrest with | cons _ h _ => exact h rfl
      simp [lastFrom, hq, hnext, ih hrest (by simpa using hf)]

theorem setNext_up (h : Heap α) (i x j : α) :
    (setNext h i x j).map (·.up) = (h j).map (·.up) := modify_field _ _ (by simp) i j

theorem setFirst_up (h : Heap α) (i x j : α) :
    (setFirst h i x j).map (·.up) = (h j).map (·.up) := modify_field _ _ (by simp) i j

theorem setNext_first (h : Heap α) (i x j : α) :
    (setNext h i x j).map (·.first) = (h j).map (·.first) := modify_field _ _ (by simp) i j

theorem setFirst_next (h : Heap α) (i x j : α) :
    (setFirst h i x j).map (·.next) = (h j).map (·.next) := modify_field _ _ (by simp) i j

theorem setNext_next {i : α} (hi : (h i).isSome = true) (x : α) :
    (setNext h i x i).map (·.next) = some x := by
  obtain ⟨l, hl⟩ := Option.isSome_iff_exists.mp hi
  rw [setNext, modify_self hl]
  rfl

theorem setNext_next_ne {i j : α} (x : α) (hj : j ≠ i) :
    (setNext h i x j).map (·.next) = (h j).map (·.next) := by rw [setNext, modify_ne hj]

theorem setFirst_first_ne {i j : α} (x : α) (hj : j ≠ i) :
    (setFirst h i x j).map (·.first) = (h j).map (·.first) := by rw [setFirst, modify_ne hj]

/-- All lists without repetition are shorter than the fuel. -/
def Small (h : Heap α) (fuel : ℕ) : Prop :=
  ∀ xs : List α, xs.Nodup → (∀ x ∈ xs, (h x).isSome = true) → xs.length < fuel

/-- If only the list of one owner changes, it is enough to know its new list. -/
theorem Listed.change {own own' : α → α} {owner : α} {lo : Links α} {ys : List α}
    (hl : Listed nil h own) (hsame : ∀ i, (h' i).isSome = (h i).isSome)
    (hfirst : ∀ i, i ≠ owner → (h' i).map (·.first) = (h i).map (·.first))
    (hnext : ∀ x, own x ≠ owner → own x ≠ nil → (h' x).map (·.next) = (h x).map (·.next))
    (hown : ∀ c i, i ≠ owner → i ≠ nil → (own' c = i ↔ own c = i))
    (ho : h' owner = some lo) (hc : Chain nil h' lo.first ys) (hn : ys.Nodup)
    (hys : ∀ c, c ∈ ys ↔ (h c).isSome = true ∧ own' c = owner) : Listed nil h' own' := by
  constructor
  · have := hsame nil
    rw [hl.nothing, Option.isSome_none, Option.isSome_eq_false_iff, Option.isNone_iff_eq_none]
      at this
    exact this
  · intro i l hi
    by_cases hio : i = owner
    · subst hio
      rw [ho, Option.some.injEq] at hi
      subst hi
      exact ⟨ys, hc, hn, fun c => by rw [hys, hsame]⟩
    · have hf := hfirst i hio
      rw [hi, Option.map_some, eq_comm, Option.map_eq_some_iff] at hf
      obtain ⟨l0, hi0, hfirst0⟩ := hf
      obtain ⟨xs, hxs, hnd, hmem⟩ := hl.kids i l0 hi0
      have hin : i ≠ nil := by
        rintro rfl
        rw [hl.nothing] at hi0
        cases hi0
      refine ⟨xs, hfirst0 ▸ hxs.congr fun x hx => ?_, hnd, fun c => ?_⟩
      · have hx := ((hmem x).mp hx).2
        exact hnext x (hx ▸ hio) (hx ▸ hin)
      · rw [hmem, hsame, hown c i hio hin]

theorem Listed.remove {own : α → α} (hl : Listed nil h own) {owner what : α} {lo lw : Links α}
    (ho : h owner = some lo) (hw : h what = some lw) (hown : own what = owner) {fuel : ℕ}
    (hs : Small h fuel) : ∃ h', remove nil fuel h owner what = some h' ∧
      (∀ i, (h' i).map (·.up) = (h i).map (·.up)) ∧ (h' what).map (·.next) = some nil ∧
      (∀ x, x ≠ what → own x ≠ owner → (h' x).map (·.next) = (h x).map (·.next)) ∧
      Listed nil h' (Function.update own what nil) := by
  obtain ⟨xs, hc, hn, hmem⟩ := hl.kids owner lo ho
  have hwx : what ∈ xs := (hmem what).mpr ⟨by simp [hw], hown⟩
  have hlen : xs.length < fuel := hs xs hn fun x hx => ((hmem x).mp hx).1
  have honil : owner ≠ nil := by
    rintro rfl
    rw [hl.nothing] at ho
    cases ho
  obtain ⟨pre, post, rfl⟩ := List.append_of_mem hwx
  have hyn : (pre++post).Nodup := hn.sublist (by simp)
  have hys : ∀ c, c ∈ pre++post ↔
      (h c).isSome = true ∧ Function.update own what nil c = owner := by
    intro c
    by_cases hcw : c = what
    · subst hcw
      rw [Function.update_self]
      refine iff_of_false (fun hin => ?_) fun hx => honil hx.2.symm
      exact (List.nodup_middle.mp hn).notMem hin
    · rw [Function.update_of_ne hcw, ← hmem]
      simp [hcw]
  have hupd : ∀ c i, i ≠ owner → i ≠ nil → (Function.update own what nil c = i ↔ own c = i) := by
    intro c i hio hin
    by_cases hcw : c = what
    · subst hcw
      rw [Function.update_self, hown]
      exact iff_of_false hin.symm hio.symm
    · rw [Function.update_of_ne hcw]
  rcases List.eq_nil_or_concat pre with rfl | ⟨pre', p, rfl⟩
  · have hfirst : lo.first = what := Chain.head hc
    refine ⟨setNext (setFirst h owner lw.next) what nil, ?_, fun i => ?_, ?_, fun x hx _ => ?_, ?_⟩
    · simp [Forest.remove, ho, hfirst, hw]
    · rw [setNext_up, setFirst_up]
    · exact setNext_next (by simp [setFirst, hw]) nil
    · rw [setNext_next_ne _ hx, setFirst_next]
    · rw [hfirst] at hc
      cases hc with
      | cons hw' _ hpost =>
        rw [hw, Option.some.injEq] at hw'
        subst hw'
        have hfst : (setNext (setFirst h owner lw.next) what nil owner).map (·.first) =
            some lw.next := by
          rw [setNext_first, setFirst, modify_self ho]
          rfl
        rw [Option.map_eq_some_iff] at hfst
        obtain ⟨lo', ho', hlo'⟩ := hfst
        refine hl.change (fun i => by simp [setNext, setFirst]) (fun i hi => ?_) (fun x hx _ => ?_)
          hupd ho' ?_ hyn hys
        · rw [setNext_first, setFirst_first_ne _ hi]
        · have hxw : x ≠ what := fun heq => hx (heq ▸ hown)
          rw [setNext_next_ne _ hxw, setFirst_next]
        · rw [hlo']
          refine hpost.congr fun x hx => ?_
          have hxw : x ≠ what := by
            rintro rfl
            exact (List.nodup_cons.mp hn).1 hx
          rw [setNext_next_ne _ hxw, setFirst_next]
  · simp only [List.concat_eq_append, List.append_assoc, List.singleton_append] at *
    have hfirst : lo.first ≠ what := by
      rintro heq
      rw [heq] at hc
      cases pre' with
      | nil => simp [Chain.head hc] at hn
      | cons q pre' => simp [Chain.head hc] at hn
    have hun := unlinkAfter_eq hc hn hw (show pre'.length < fuel by simp at hlen; omega)
    have hpw : p ≠ what := by
      rintro rfl
      simp [List.nodup_append] at hn
    have hpo : own p = owner := ((hmem p).mp (by simp)).2
    refine ⟨setNext (setNext h p lw.next) what nil, ?_, fun i => ?_, ?_, fun x hx ho => ?_, ?_⟩
    · simp [Forest.remove, ho, hfirst, hun]
    · rw [setNext_up, setNext_up]
    · exact setNext_next (by simp [setNext, hw]) nil
    · have hxp : x ≠ p := fun heq => ho (heq ▸ hpo)
      rw [setNext_next_ne _ hx, setNext_next_ne _ hxp]
    · have hfst : (setNext (setNext h p lw.next) what nil owner).map (·.first) =
          some lo.first := by
        rw [setNext_first, setNext_first, ho]
        rfl
      rw [Option.map_eq_some_iff] at hfst
      obtain ⟨lo', ho', hlo'⟩ := hfst
      refine hl.change (fun i => by simp [setNext]) (fun i hi => ?_) (fun x hx _ => ?_)
        hupd ho' ?_ hyn hys
      · rw [setNext_first, setNext_first]
      · have hxw : x ≠ what := fun heq => hx (heq ▸ hown)
        have hxp : x ≠ p := fun heq => hx (heq ▸ hpo)
        rw [setNext_next_ne _ hxw, setNext_next_ne _ hxp]
      · rw [hlo']
        refine (hc.unlink hn hw).congr fun x hx => ?_
        have hxw : x ≠ what := by
          rintro rfl
          exact absurd ((hys x).mp hx).2 (by rw [Function.update_self]; exact honil.symm)
        rw [setNext_next_ne _ hxw]

theorem Listed.append {own : α → α} (hl : Listed nil h own) {owner what : α} {lo lw : Links α}
    (ho : h owner = some lo) (hw : h what = some lw) (hown : own what = nil) {fuel : ℕ}
    (hs : Small h fuel) : ∃ h', append nil fuel h owner what = some h' ∧
      (∀ i, (h' i).map (·.up) = (h i).map (·.up)) ∧ (h' what).map (·.next) = some nil ∧
      (∀ x, x ≠ what → own x ≠ owner → (h' x).map (·.next) = (h x).map (·.next)) ∧
      Listed nil h' (Function.update own what owner) := by
  obtain ⟨xs, hc, hn, hmem⟩ := hl.kids owner lo ho
  have hlen : xs.length < fuel := hs xs hn fun x hx => ((hmem x).mp hx).1
  have hne : ∀ i l, h i = some l → i ≠ nil := by
    rintro i l hi rfl
    rw [hl.nothing] at hi
    cases hi
  have honil := hne owner lo ho
  have hwx : what ∉ xs := fun hx => honil (((hmem what).mp hx).2.symm.trans hown)
  have hyn : (xs++[what]).Nodup := List.nodup_append.mpr ⟨hn, by simp, by
    intro a ha b hb heq
    rw [List.mem_singleton] at hb
    exact hwx (hb ▸ heq ▸ ha)⟩
  have hys : ∀ c, c ∈ xs++[what] ↔
      (h c).isSome = true ∧ Function.update own what owner c = owner := by
    intro c
    by_cases hcw : c = what
    · subst hcw
      rw [Function.update_self]
      simp [hw]
    · rw [Function.update_of_ne hcw, ← hmem]
      simp [hcw]
  have hupd : ∀ c i, i ≠ owner → i ≠ nil →
      (Function.update own what owner c = i ↔ own c = i) := by
    intro c i hio hin
    by_cases hcw : c = what
    · subst hcw
      rw [Function.update_self, hown]
      exact iff_of_false hio.symm hin.symm
    · rw [Function.update_of_ne hcw]
  rcases List.eq_nil_or_concat xs with rfl | ⟨pre, p, rfl⟩
  · have hfirst : lo.first = nil := by
      cases hc
      rfl
    refine ⟨setNext (setFirst h owner what) what nil, ?_, fun i => ?_, ?_, fun x hx _ => ?_, ?_⟩
    · simp [Forest.append, ho, hfirst]
    · rw [setNext_up, setFirst_up]
    · exact setNext_next (by simp [setFirst, hw]) nil
    · rw [setNext_next_ne _ hx, setFirst_next]
    · have hfst : (setNext (setFirst h owner what) what nil owner).map (·.first) = some what := by
        rw [setNext_first, setFirst, modify_self ho]
        rfl
      rw [Option.map_eq_some_iff] at hfst
      obtain ⟨lo', ho', hlo'⟩ := hfst
      refine hl.change (fun i => by simp [setNext, setFirst]) (fun i hi => ?_) (fun x _ hx => ?_)
        hupd ho' ?_ hyn hys
      · rw [setNext_first, setFirst_first_ne _ hi]
      · have hxw : x ≠ what := fun heq => hx (heq ▸ hown)
        rw [setNext_next_ne _ hxw, setFirst_next]
      · rw [hlo']
        have hsome : ((setFirst h owner what) what).isSome = true := by simp [setFirst, hw]
        obtain ⟨l1, hl1⟩ := Option.isSome_iff_exists.mp hsome
        exact .cons (modify_self hl1 _) (hne what lw hw) .nil
  · rw [List.concat_eq_append] at *
    have hfirst : lo.first ≠ nil := by
      intro heq
      rw [heq] at hc
      cases pre with
      | nil => cases hc with | cons _ h _ => exact h rfl
      | cons q pre => cases hc with | cons _ h _ => exact h rfl
    have hlast := lastFrom_eq hc (show pre.length < fuel by simp at hlen; omega)
    have hpo : own p = owner := ((hmem p).mp (by simp)).2
    refine ⟨setNext (setNext h p what) what nil, ?_, fun i => ?_, ?_, fun x hx ho => ?_, ?_⟩
    · simp [Forest.append, ho, hfirst, hlast]
    · rw [setNext_up, setNext_up]
    · exact setNext_next (by simp [setNext, hw]) nil
    · have hxp : x ≠ p := fun heq => ho (heq ▸ hpo)
      rw [setNext_next_ne _ hx, setNext_next_ne _ hxp]
    · have hfst : (setNext (setNext h p what) what nil owner).map (·.first) = some lo.first := by
        rw [setNext_first, setNext_first, ho]
        rfl
      rw [Option.map_eq_some_iff] at hfst
      obtain ⟨lo', ho', hlo'⟩ := hfst
      refine hl.change (fun i => by simp [setNext]) (fun i hi => ?_) (fun x hx hxn => ?_)
        hupd ho' ?_ hyn hys
      · rw [setNext_first, setNext_first]
      · have hxw : x ≠ what := fun heq => hxn (heq ▸ hown)
        have hxp : x ≠ p := fun heq => hx (heq ▸ hpo)
        rw [setNext_next_ne _ hxw, setNext_next_ne _ hxp]
      · rw [hlo', List.append_assoc]
        exact hc.link hn hw (hne what lw hw) hwx

end
end Forest
