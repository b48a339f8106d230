import Mathlib.Data.Set.Finite.Basic
import LambdaMoo.Forest

/-!
# Moving nodes of a forest

`IsForest` adds to the agreement of the lists that the links up lead to nodes
and never around. A node may be moved below any node that is not below it,
added without relations, taken away when it has none, and given a new address.
-/

set_option autoImplicit false

namespace Forest

section
variable {α : Type} (nil : α)

def upOf (h : Heap α) (i : α) : α :=
  match h i with
  | some l => l.up
  | none => nil

/-- One link up, to a node. -/
def Above (h : Heap α) (i j : α) : Prop := ∃ l, h i = some l ∧ l.up = j ∧ j ≠ nil

/-- `j` is `i` or above it. -/
abbrev Below (h : Heap α) : α → α → Prop := Relation.ReflTransGen (Above nil h)

structure IsForest (h : Heap α) : Prop where
  listed : Listed nil h (upOf nil h)
  up : ∀ i l, h i = some l → l.up = nil ∨ (h l.up).isSome = true
  orphan : ∀ i l, h i = some l → l.up = nil → l.next = nil
  acyclic : ∃ r : α → ℕ, ∀ i j, Above nil h i j → r j < r i

variable [DecidableEq α]

/-- The loop that looks for `what` at `i` and above. -/
def reaches (h : Heap α) (what : α) : ℕ → α → Option Bool
  | 0, _ => none
  | fuel+1, i =>
    if i = nil then some false
    else if i = what then some true
    else do reaches h what fuel (← h i).up

def detach (fuel : ℕ) (h : Heap α) (owner what : α) : Option (Heap α) :=
  if owner = nil then some h else remove nil fuel h owner what

def attach (fuel : ℕ) (h : Heap α) (owner what : α) : Option (Heap α) :=
  if owner = nil then some h else append nil fuel h owner what

/-- Takes a node out of the list of its parent, puts it at the end of another and sets its link. -/
def reparent (fuel : ℕ) (h : Heap α) (what dest : α) : Option (Heap α) := do
  let h1 ← detach nil fuel h (← h what).up what
  let h2 ← attach nil fuel h1 dest what
  return setUp h2 what dest

/-- A node without relations. -/
def addNode (h : Heap α) (i : α) : Heap α := fun j => if j = i then some ⟨nil, nil, nil⟩ else h j

def dropNode (h : Heap α) (i : α) : Heap α := fun j => if j = i then none else h j

end

section
variable {α : Type} {nil : α} {h h' : Heap α}

theorem upOf_eq (nil : α) {i : α} {l : Links α} (hi : h i = some l) : upOf nil h i = l.up := by
  simp [upOf, hi]

/-- What is to be shown of the nodes where there are finitely many, with the list of what each owns and
how far below a root it is. -/
theorem IsForest.ofNodes (nodes : List α) (hout : ∀ i, (h i).isSome = true → i ∈ nodes)
    (kids : α → List α) (rank : α → ℕ) (hnil : h nil = none)
    (hkids : ∀ i ∈ nodes, ∀ l, h i = some l → Chain nil h l.first (kids i) ∧ (kids i).Nodup ∧
      (∀ c ∈ kids i, (h c).isSome = true) ∧ ∀ c ∈ nodes, c ∈ kids i ↔ upOf nil h c = i)
    (hup : ∀ i ∈ nodes, ∀ l, h i = some l → (l.up = nil ∧ l.next = nil) ∨
      ((h l.up).isSome = true ∧ rank l.up < rank i)) : IsForest nil h := by
  have hin : ∀ {i l}, h i = some l → i ∈ nodes := fun hi => hout _ (by simp [hi])
  refine ⟨⟨hnil, fun i l hi => ?_⟩, fun i l hi => ?_, fun i l hi hn => ?_, rank, ?_⟩
  · obtain ⟨hc, hn, hs, hmem⟩ := hkids i (hin hi) l hi
    refine ⟨kids i, hc, hn, fun c => ⟨fun hk => ⟨hs c hk, ?_⟩, fun ⟨hc, hu⟩ => ?_⟩⟩
    · exact (hmem c (hout c (hs c hk))).mp hk
    · exact (hmem c (hout c hc)).mpr hu
  · exact (hup i (hin hi) l hi).imp And.left And.left
  · rcases hup i (hin hi) l hi with ⟨-, hnext⟩|⟨hs, -⟩
    · exact hnext
    · rw [hn, hnil] at hs
      cases hs
  · rintro i j ⟨l, hi, rfl, hne⟩
    rcases hup i (hin hi) l hi with ⟨hn, -⟩|⟨-, hr⟩
    · exact absurd hn hne
    · exact hr

theorem IsForest.ne_nil (hf : IsForest nil h) {i : α} (hi : (h i).isSome = true) : i ≠ nil := by
  rintro rfl
  rw [hf.listed.nothing] at hi
  cases hi

/-- The children of a node: the list visits them all, once each. -/
theorem IsForest.children (hf : IsForest nil h) {i : α} {l : Links α} (hi : h i = some l) :
    ∃ xs, Chain nil h l.first xs ∧ xs.Nodup ∧ ∀ c, c ∈ xs ↔ Above nil h c i := by
  obtain ⟨xs, hc, hn, hmem⟩ := hf.listed.kids i l hi
  refine ⟨xs, hc, hn, fun c => ?_⟩
  rw [hmem]
  constructor
  · rintro ⟨hs, ho⟩
    obtain ⟨lc, hlc⟩ := Option.isSome_iff_exists.mp hs
    rw [upOf_eq nil hlc] at ho
    exact ⟨lc, hlc, ho, hf.ne_nil (by simp [hi])⟩
  · rintro ⟨lc, hlc, hup, -⟩
    exact ⟨by simp [hlc], by rw [upOf_eq nil hlc, hup]⟩

theorem IsForest.above_isSome (hf : IsForest nil h) {i j : α} (ha : Above nil h i j) :
    (h i).isSome = true ∧ (h j).isSome = true := by
  obtain ⟨l, hi, rfl, hne⟩ := ha
  exact ⟨by simp [hi], (hf.up i l hi).resolve_left hne⟩

theorem above_unique {i j k : α} (hj : Above nil h i j) (hk : Above nil h i k) : j = k := by
  obtain ⟨l, hi, rfl, -⟩ := hj
  obtain ⟨l', hi', rfl, -⟩ := hk
  rw [hi, Option.some.injEq] at hi'
  rw [hi']

theorem IsForest.irrefl (hf : IsForest nil h) {i j : α} (ha : Above nil h i j) :
    ¬Below nil h j i := by
  obtain ⟨r, hr⟩ := hf.acyclic
  have hle : ∀ {x y}, Below nil h x y → r y ≤ r x := by
    intro x y hxy
    induction hxy with
    | refl => exact le_rfl
    | tail _ hab ih => exact (Nat.le_of_lt (hr _ _ hab)).trans ih
  intro hji
  exact absurd (hr i j ha) (Nat.not_lt.mpr (hle hji))

/-- The nodes are finitely many. -/
theorem Small.finset {fuel : ℕ} (hs : Small h fuel) :
    ∃ S : Finset α, (∀ i, i ∈ S ↔ (h i).isSome = true) ∧ S.card < fuel := by
  have hfin : {i | (h i).isSome = true}.Finite := by
    by_contra hinf
    obtain ⟨T, hT, hcard⟩ := Set.Infinite.exists_subset_card_eq hinf fuel
    have := hs T.toList T.nodup_toList fun x hx => hT (Finset.mem_toList.mp hx)
    rw [Finset.length_toList, hcard] at this
    exact absurd this (Nat.lt_irrefl _)
  refine ⟨hfin.toFinset, fun i => by simp, ?_⟩
  have := hs hfin.toFinset.toList (Finset.nodup_toList _) fun x hx => by simpa using hx
  rwa [Finset.length_toList] at this

theorem below_step {i j k : α} (ha : Above nil h i j) (hne : i ≠ k) :
    Below nil h i k ↔ Below nil h j k := by
  constructor
  · intro hb
    rcases Relation.ReflTransGen.cases_head hb with heq | ⟨m, hm, hmk⟩
    · exact absurd heq hne
    · rwa [above_unique ha hm]
  · exact fun hb => .head ha hb

theorem listed_congr_up {own own' : α → α} (hl : Listed nil h own)
    (hown : ∀ c, (h c).isSome = true → own' c = own c) : Listed nil h own' := by
  refine ⟨hl.nothing, fun i l hi => ?_⟩
  obtain ⟨xs, hc, hn, hmem⟩ := hl.kids i l hi
  refine ⟨xs, hc, hn, fun c => ?_⟩
  rw [hmem]
  exact and_congr_right fun hs => by rw [hown c hs]

/-- The links up are ranked below the number of nodes. -/
theorem IsForest.rank (hf : IsForest nil h) {fuel : ℕ} (hs : Small h fuel) :
    ∃ r : α → ℕ, (∀ i j, Above nil h i j → r j < r i) ∧
      ∀ i, (h i).isSome = true → r i+1 < fuel := by
  obtain ⟨S, hS, hcard⟩ := hs.finset
  obtain ⟨r, hr⟩ := hf.acyclic
  refine ⟨fun i => (S.filter fun k => r k < r i).card, fun i j ha => ?_, fun i hi => ?_⟩
  · have hlt := hr i j ha
    refine Finset.card_lt_card (Finset.ssubset_iff_of_subset ?_ |>.mpr ⟨j, ?_, ?_⟩)
    · intro k hk
      rw [Finset.mem_filter] at hk ⊢
      exact ⟨hk.1, hk.2.trans hlt⟩
    · rw [Finset.mem_filter, hS]
      exact ⟨(hf.above_isSome ha).2, hlt⟩
    · rw [Finset.mem_filter]
      exact fun hk => Nat.lt_irrefl _ hk.2
  · have hlt : (S.filter fun k => r k < r i).card < S.card := by
      refine Finset.card_lt_card (Finset.ssubset_iff_of_subset (Finset.filter_subset _ _) |>.mpr
        ⟨i, (hS i).mpr hi, ?_⟩)
      rw [Finset.mem_filter]
      exact fun hk => Nat.lt_irrefl _ hk.2
    dsimp only
    omega

/-- A node that owns nothing has no first one. -/
theorem IsForest.first_nil (hf : IsForest nil h) {i : α} {l : Links α} (hi : h i = some l)
    (hno : ∀ c, ¬Above nil h c i) : l.first = nil := by
  obtain ⟨xs, hc, -, hmem⟩ := hf.children hi
  cases xs with
  | cons x xs => exact absurd ((hmem x).mp (by simp)) (hno x)
  | nil =>
    generalize l.first = i at hc
    cases hc
    rfl

theorem above_upOf {i j : α} :
    Above nil h i j ↔ (h i).isSome = true ∧ upOf nil h i = j ∧ j ≠ nil := by
  constructor
  · rintro ⟨l, hl, rfl, hn⟩
    exact ⟨by simp [hl], upOf_eq nil hl, hn⟩
  · rintro ⟨hs, hu, hn⟩
    obtain ⟨l, hl⟩ := Option.isSome_iff_exists.mp hs
    exact ⟨l, hl, by rw [← hu, upOf_eq nil hl], hn⟩

theorem IsForest.not_below_nil (hf : IsForest nil h) {i : α} (hi : (h i).isSome = true) :
    ¬Below nil h nil i := by
  intro hb
  rcases Relation.ReflTransGen.cases_head hb with rfl|⟨k, ⟨l, hl, -⟩, -⟩
  · rw [hf.listed.nothing] at hi
    cases hi
  · rw [hf.listed.nothing] at hl
    cases hl

variable [DecidableEq α]

theorem reaches_eq (hf : IsForest nil h) {what i : α} {fuel : ℕ} {r : α → ℕ}
    (hr : ∀ i j, Above nil h i j → r j < r i) (hi : i = nil ∨ (h i).isSome = true)
    (hw : what ≠ nil) (hfuel : i ≠ nil → r i+1 < fuel) (h0 : 0 < fuel) :
    ∃ b, reaches nil h what fuel i = some b ∧ (b = true ↔ Below nil h i what) := by
  induction fuel generalizing i with
  | zero => exact absurd h0 (Nat.lt_irrefl 0)
  | succ fuel ih =>
    rw [reaches]
    by_cases hin : i = nil
    · refine ⟨false, by simp [hin], iff_of_false (by simp) fun hb => ?_⟩
      subst hin
      rcases Relation.ReflTransGen.cases_head hb with heq | ⟨m, ⟨l, hm, -⟩, -⟩
      · exact hw heq.symm
      · rw [hf.listed.nothing] at hm
        cases hm
    · rw [if_neg hin]
      by_cases hiw : i = what
      · subst hiw
        exact ⟨true, by simp, iff_of_true rfl .refl⟩
      · rw [if_neg hiw]
        obtain ⟨l, hl⟩ := Option.isSome_iff_exists.mp (hi.resolve_left hin)
        have hfi := hfuel hin
        by_cases hup : l.up = nil
        · obtain ⟨b, hb, hbi⟩ := ih (i := l.up) (.inl hup) (fun hne => absurd hup hne) (by omega)
          refine ⟨b, by simp [hl, hb], hbi.trans ?_⟩
          rw [hup]
          constructor
          · intro hb'
            rcases Relation.ReflTransGen.cases_head hb' with heq | ⟨m, ⟨l', hm, -⟩, -⟩
            · exact absurd heq.symm hw
            · rw [hf.listed.nothing] at hm
              cases hm
          · intro hb'
            rcases Relation.ReflTransGen.cases_head hb' with heq | ⟨m, ⟨l', hm, hm', hmn⟩, -⟩
            · exact absurd heq hiw
            · rw [hl, Option.some.injEq] at hm
              subst hm
              exact absurd (hm'.symm.trans hup) hmn
        · have ha : Above nil h i l.up := ⟨l, hl, rfl, hup⟩
          have hlt := hr i l.up ha
          obtain ⟨b, hb, hbi⟩ := ih (i := l.up) (.inr (hf.above_isSome ha).2)
            (fun _ => by omega) (by omega)
          exact ⟨b, by simp [hl, hb], hbi.trans (below_step ha hiw).symm⟩

/-- The loop decides whether a node is below another. -/
theorem IsForest.reaches (hf : IsForest nil h) {fuel : ℕ} (hs : Small h fuel) {what i : α}
    (hi : i = nil ∨ (h i).isSome = true) (hw : what ≠ nil) :
    ∃ b, reaches nil h what (fuel+1) i = some b ∧ (b = true ↔ Below nil h i what) := by
  obtain ⟨r, hr, hlt⟩ := hf.rank hs
  refine reaches_eq hf hr hi hw (fun hne => ?_) (Nat.succ_pos fuel)
  exact Nat.lt_succ_of_lt (hlt i (hi.resolve_left hne))

/-- The links up of a heap after one of them was set. -/
theorem setUp_upOf {what dest : α} (hw : (h what).isSome = true) (i : α) :
    upOf nil (setUp h what dest) i = Function.update (upOf nil h) what dest i := by
  by_cases hi : i = what
  · subst hi
    obtain ⟨l, hl⟩ := Option.isSome_iff_exists.mp hw
    rw [Function.update_self, setUp, upOf_eq nil (modify_self hl _)]
  · rw [Function.update_of_ne hi]
    simp [upOf, setUp, modify_ne hi]

theorem setUp_listed {own : α → α} (hl : Listed nil h own) (what dest : α) :
    Listed nil (setUp h what dest) own := by
  refine ⟨modify_none hl.nothing, fun i l hi => ?_⟩
  have hf : (setUp h what dest i).map (·.first) = (h i).map (·.first) :=
    modify_field _ _ (by simp) what i
  rw [hi, Option.map_some, eq_comm, Option.map_eq_some_iff] at hf
  obtain ⟨l0, hi0, hfirst⟩ := hf
  obtain ⟨xs, hc, hn, hmem⟩ := hl.kids i l0 hi0
  refine ⟨xs, hfirst ▸ hc.congr fun x _ => modify_field _ _ (by simp) what x, hn, fun c => ?_⟩
  rw [hmem]
  simp [setUp]

theorem detach_listed (hf : IsForest nil h) {what : α} {l : Links α} (hw : h what = some l)
    {fuel : ℕ} (hs : Small h fuel) :
    ∃ h1, detach nil fuel h l.up what = some h1 ∧
      (∀ i, (h1 i).map (·.up) = (h i).map (·.up)) ∧ (h1 what).map (·.next) = some nil ∧
      (∀ x, x ≠ what → upOf nil h x = nil → (h1 x).map (·.next) = (h x).map (·.next)) ∧
      Listed nil h1 (Function.update (upOf nil h) what nil) := by
  rw [detach]
  by_cases hup : l.up = nil
  · refine ⟨h, if_pos hup, fun _ => rfl, ?_, fun _ _ _ => rfl, ?_⟩
    · rw [hw, Option.map_some, hf.orphan what l hw hup]
    · refine listed_congr_up hf.listed fun c _ => ?_
      by_cases hc : c = what
      · subst hc
        rw [Function.update_self, upOf_eq nil hw, hup]
      · rw [Function.update_of_ne hc]
  · obtain ⟨lo, ho⟩ := Option.isSome_iff_exists.mp ((hf.up what l hw).resolve_left hup)
    obtain ⟨h1, hr, hu, hn, hk, hl⟩ := hf.listed.remove ho hw (upOf_eq nil hw) hs
    refine ⟨h1, by rw [if_neg hup, hr], hu, hn, fun x hx hxn => hk x hx ?_, hl⟩
    rw [hxn]
    exact fun heq => hup heq.symm

/-- Moving a node below one that is not below it keeps a forest. -/
theorem IsForest.reparent (hf : IsForest nil h) {what dest : α} (hw : (h what).isSome = true)
    (hdest : dest = nil ∨ (h dest).isSome = true) (hnot : ¬Below nil h dest what) {fuel : ℕ}
    (hs : Small h fuel) : ∃ h', reparent nil fuel h what dest = some h' ∧ IsForest nil h' ∧
      (∀ i, (h' i).isSome = (h i).isSome) ∧
      ∀ i, upOf nil h' i = Function.update (upOf nil h) what dest i := by
  obtain ⟨l, hl⟩ := Option.isSome_iff_exists.mp hw
  obtain ⟨h1, hd, hu1, hn1, hk1, hl1⟩ := detach_listed hf hl hs
  have hsome1 : ∀ i, (h1 i).isSome = (h i).isSome := fun i => by
    simpa using congrArg Option.isSome (hu1 i)
  obtain ⟨lw1, hw1⟩ := Option.isSome_iff_exists.mp ((hsome1 what).trans hw)
  have hs1 : Small h1 fuel := fun xs hn hx => hs xs hn fun x hxx => (hsome1 x) ▸ hx x hxx
  have happ : ∃ h2, attach nil fuel h1 dest what = some h2 ∧
      (∀ i, (h2 i).map (·.up) = (h i).map (·.up)) ∧ (h2 what).map (·.next) = some nil ∧
      (∀ x, x ≠ what → upOf nil h x = nil → (h2 x).map (·.next) = (h x).map (·.next)) ∧
      Listed nil h2 (Function.update (upOf nil h) what dest) := by
    rw [attach]
    by_cases htn : dest = nil
    · subst htn
      exact ⟨h1, if_pos rfl, hu1, hn1, hk1, hl1⟩
    · obtain ⟨lo, ho⟩ := Option.isSome_iff_exists.mp ((hsome1 dest).trans (hdest.resolve_left htn))
      obtain ⟨h2, ha, hu2, hn2, hk2, hl2⟩ := hl1.append ho hw1 (Function.update_self ..) hs1
      refine ⟨h2, by rw [if_neg htn, ha], fun i => (hu2 i).trans (hu1 i), hn2, fun x hx hxn => ?_,
        by rwa [Function.update_idem] at hl2⟩
      refine (hk2 x hx ?_).trans (hk1 x hx hxn)
      rw [Function.update_of_ne hx, hxn]
      exact fun heq => htn heq.symm
  obtain ⟨h2, ha, hu2, hn2, hk2, hl2⟩ := happ
  have hsome2 : ∀ i, (h2 i).isSome = (h i).isSome := fun i => by
    simpa using congrArg Option.isSome (hu2 i)
  have hup2 : ∀ i, upOf nil h2 i = upOf nil h i := by
    intro i
    have := hu2 i
    unfold upOf
    cases hi2 : h2 i with
    | none => cases hi : h i with
      | none => rfl
      | some l => simp [hi2, hi] at this
    | some l2 => cases hi : h i with
      | none => simp [hi2, hi] at this
      | some l => simpa [hi2, hi] using this
  have hup : ∀ i, upOf nil (setUp h2 what dest) i = Function.update (upOf nil h) what dest i := by
    intro i
    rw [setUp_upOf ((hsome2 what).trans hw)]
    by_cases hi : i = what
    · subst hi
      rw [Function.update_self, Function.update_self]
    · rw [Function.update_of_ne hi, Function.update_of_ne hi, hup2]
  have hsome : ∀ i, (setUp h2 what dest i).isSome = (h i).isSome := fun i => by
    rw [setUp, modify_isSome, hsome2]
  refine ⟨setUp h2 what dest, ?_, ⟨?_, ?_, ?_, ?_⟩, hsome, hup⟩
  · simp [Forest.reparent, hl, hd, ha]
  · exact listed_congr_up (setUp_listed hl2 what dest) fun c _ => hup c
  · intro i li hi
    rw [hsome, ← upOf_eq nil hi, hup]
    by_cases hiw : i = what
    · subst hiw
      rw [Function.update_self]
      exact hdest
    · rw [Function.update_of_ne hiw]
      rw [setUp, modify_ne hiw] at hi
      obtain ⟨l0, hl0⟩ := Option.isSome_iff_exists.mp ((hsome2 i) ▸ (by simp [hi]) :
        (h i).isSome = true)
      rw [upOf_eq nil hl0]
      exact hf.up i l0 hl0
  · intro i li hi hiu
    have hnext : (setUp h2 what dest i).map (·.next) = (h2 i).map (·.next) :=
      modify_field _ _ (by simp) what i
    have hui := hup i
    rw [upOf_eq nil hi, hiu] at hui
    rw [hi, Option.map_some] at hnext
    by_cases hiw : i = what
    · subst hiw
      rw [hn2, Option.some.injEq] at hnext
      exact hnext
    · rw [Function.update_of_ne hiw] at hui
      rw [hk2 i hiw hui.symm, eq_comm, Option.map_eq_some_iff] at hnext
      obtain ⟨l0, hl0, hl0n⟩ := hnext
      rw [← hl0n]
      exact hf.orphan i l0 hl0 (by rw [← upOf_eq nil hl0, ← hui])
  · obtain ⟨r, hr⟩ := hf.acyclic
    classical
    refine ⟨fun i => if Below nil h i what then r i+(r dest+1) else r i, fun i j ha => ?_⟩
    obtain ⟨li, hi, hij, hjn⟩ := ha
    have hui := hup i
    rw [upOf_eq nil hi, hij] at hui
    by_cases hiw : i = what
    · subst hiw
      rw [Function.update_self] at hui
      subst hui
      have hii : Below nil h i i := .refl
      simp only [if_neg hnot, if_pos hii]
      omega
    · rw [Function.update_of_ne hiw] at hui
      have hsi : (h i).isSome = true := by rw [← hsome i, hi]; rfl
      obtain ⟨l0, hl0⟩ := Option.isSome_iff_exists.mp hsi
      have ha0 : Above nil h i j := ⟨l0, hl0, by rw [hui, upOf_eq nil hl0], hjn⟩
      have hlt := hr i j ha0
      by_cases hb : Below nil h i what
      · have hbj := (below_step ha0 hiw).mp hb
        simp only [if_pos hb, if_pos hbj]
        omega
      · have hbj : ¬Below nil h j what := fun hx => hb ((below_step ha0 hiw).mpr hx)
        simp only [if_neg hb, if_neg hbj]
        exact hlt

end
end Forest
