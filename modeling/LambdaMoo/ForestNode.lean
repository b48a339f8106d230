import LambdaMoo.ForestMove

/-!
# New, dropped and renamed nodes

A node without relations can be added or taken away. A node is renamed in
place: the pointer to it in the list of its parent and the links of its
children are rewritten, which amounts to renaming the address everywhere.
-/

set_option autoImplicit false

namespace Forest

section
variable {α : Type} [DecidableEq α] (nil : α)

def moveNode (h : Heap α) (old new : α) : Heap α :=
  fun j => if j = new then h old else if j = old then none else h j

/-- The loop that finds the pointer to `old` behind a node and overwrites it. -/
def relinkFrom (h : Heap α) (old new : α) : ℕ → α → Option (Heap α)
  | 0, _ => none
  | fuel+1, lid => do
    let l ← h lid
    if l.next = old then return setNext h lid new
    else if l.next = nil then none
    else relinkFrom h old new fuel l.next

def relink (fuel : ℕ) (h : Heap α) (owner old new : α) : Option (Heap α) :=
  if owner = nil then some h
  else do
    let l ← h owner
    if l.first = old then return setFirst h owner new
    else if l.first = nil then none
    else relinkFrom nil h old new fuel l.first

def adopt (new : α) : ℕ → α → Heap α → Option (Heap α)
  | 0, _, _ => none
  | fuel+1, i, h =>
    if i = nil then some h
    else do adopt new fuel (← h i).next (setUp h i new)

def rename (fuel : ℕ) (h : Heap α) (old new : α) : Option (Heap α) := do
  let l ← h old
  let h' ← relink nil fuel (moveNode h old new) l.up old new
  adopt nil new fuel l.first h'

def redirect (old new x : α) : α := if x = old then new else x

def Links.redirect (old new : α) (l : Links α) : Links α where
  up := Forest.redirect old new l.up
  first := Forest.redirect old new l.first
  next := Forest.redirect old new l.next

/-- All occurrences of one address replaced. -/
def relabel (h : Heap α) (old new : α) : Heap α :=
  fun j => if j = new then (h old).map (Links.redirect old new)
    else if j = old then none else (h j).map (Links.redirect old new)

end

section
variable {α : Type} [DecidableEq α] {nil : α} {h h' : Heap α}

theorem addNode_above {n : α} (hn : h n = none) (i j : α) :
    Above nil (addNode nil h n) i j ↔ Above nil h i j := by
  by_cases hi : i = n
  · subst hi
    refine iff_of_false ?_ ?_
    · rintro ⟨l, hl, hu, hne⟩
      simp only [addNode, if_pos, Option.some.injEq] at hl
      exact hne (by rw [← hu, ← hl])
    · rintro ⟨l, hl, -⟩
      rw [hn] at hl
      cases hl
  · simp [Above, addNode, hi]

theorem IsForest.addNode (hf : IsForest nil h) {n : α} (hn : h n = none) (hne : n ≠ nil) :
    IsForest nil (addNode nil h n) := by
  have hnew : Forest.addNode nil h n n = some ⟨nil, nil, nil⟩ := by simp [Forest.addNode]
  have hold : ∀ i, i ≠ n → Forest.addNode nil h n i = h i := fun i hi => by
    simp [Forest.addNode, hi]
  have hvalid : ∀ x, (h x).isSome = true → x ≠ n := by
    rintro x hx rfl
    rw [hn] at hx
    cases hx
  refine ⟨⟨by rw [hold nil hne.symm, hf.listed.nothing], fun i l hi => ?_⟩, fun i l hi => ?_,
    fun i l hi hu => ?_, ?_⟩
  · by_cases hin : i = n
    · subst hin
      rw [hnew, Option.some.injEq] at hi
      subst hi
      refine ⟨[], .nil, .nil, fun c => iff_of_false (by simp) ?_⟩
      rintro ⟨hc, hu⟩
      by_cases hcn : c = i
      · subst hcn
        rw [upOf_eq nil hnew] at hu
        exact hne hu.symm
      · rw [hold c hcn] at hc
        obtain ⟨lc, hlc⟩ := Option.isSome_iff_exists.mp hc
        rw [upOf_eq nil ((hold c hcn).trans hlc)] at hu
        have := (hf.up c lc hlc).resolve_left (hu ▸ hne)
        exact hvalid _ this hu
    · rw [hold i hin] at hi
      obtain ⟨xs, hc, hnd, hmem⟩ := hf.listed.kids i l hi
      refine ⟨xs, hc.congr fun x hx => by rw [hold x (hvalid x ((hmem x).mp hx).1)], hnd,
        fun c => ?_⟩
      by_cases hcn : c = n
      · subst hcn
        refine iff_of_false (fun hx => hvalid c ((hmem c).mp hx).1 rfl) ?_
        rw [upOf_eq nil hnew]
        exact fun hx => hf.ne_nil (by simp [hi]) hx.2.symm
      · rw [hmem, hold c hcn, upOf, upOf, hold c hcn]
  · by_cases hin : i = n
    · subst hin
      rw [hnew, Option.some.injEq] at hi
      exact .inl (by rw [← hi])
    · rw [hold i hin] at hi
      refine (hf.up i l hi).imp_right fun hs => ?_
      rw [hold _ (hvalid _ hs)]
      exact hs
  · by_cases hin : i = n
    · subst hin
      rw [hnew, Option.some.injEq] at hi
      rw [← hi]
    · rw [hold i hin] at hi
      exact hf.orphan i l hi hu
  · obtain ⟨r, hr⟩ := hf.acyclic
    exact ⟨r, fun i j ha => hr i j ((addNode_above hn i j).mp ha)⟩

theorem dropNode_above {n : α} {l : Links α} (hn : h n = some l)
    (hup : l.up = nil) (i j : α) : Above nil (dropNode h n) i j ↔ Above nil h i j := by
  by_cases hi : i = n
  · subst hi
    refine iff_of_false ?_ ?_
    · rintro ⟨l, hl, -⟩
      simp [dropNode] at hl
    · rintro ⟨l', hl', hu, hne⟩
      rw [hn, Option.some.injEq] at hl'
      subst hl'
      exact hne (hu.symm.trans hup)
  · simp [Above, dropNode, hi]

theorem IsForest.dropNode (hf : IsForest nil h) {n : α} {l : Links α} (hn : h n = some l)
    (hup : l.up = nil) (hfirst : l.first = nil) : IsForest nil (dropNode h n) := by
  have hold : ∀ i, i ≠ n → Forest.dropNode h n i = h i := fun i hi => by simp [Forest.dropNode, hi]
  have hnone : Forest.dropNode h n n = none := by simp [Forest.dropNode]
  have hbarren : ∀ c, ¬Above nil h c n := by
    intro c hc
    obtain ⟨xs, hch, -, hmem⟩ := hf.children hn
    rw [hfirst] at hch
    cases hch.unique .nil
    exact absurd ((hmem c).mpr hc) List.not_mem_nil
  have hupn : ∀ i l, h i = some l → l.up ≠ n := by
    intro i l hi hu
    exact hbarren i ⟨l, hi, hu, hf.ne_nil (by simp [hn])⟩
  refine ⟨⟨?_, fun i li hi => ?_⟩, fun i li hi => ?_, fun i li hi hu => ?_, ?_⟩
  · rw [hold nil (hf.ne_nil (by simp [hn])).symm, hf.listed.nothing]
  · have hin : i ≠ n := by
      rintro rfl
      rw [hnone] at hi
      cases hi
    rw [hold i hin] at hi
    obtain ⟨xs, hc, hnd, hmem⟩ := hf.listed.kids i li hi
    have hnx : ∀ x ∈ xs, x ≠ n := by
      rintro x hx rfl
      have := ((hmem x).mp hx).2
      rw [upOf_eq nil hn, hup] at this
      exact hf.ne_nil (by simp [hi]) this.symm
    refine ⟨xs, hc.congr fun x hx => by rw [hold x (hnx x hx)], hnd, fun c => ?_⟩
    by_cases hcn : c = n
    · subst hcn
      exact iff_of_false (fun hx => hnx c hx rfl) (by simp [hnone])
    · rw [hmem, hold c hcn, upOf, upOf, hold c hcn]
  · have hin : i ≠ n := by
      rintro rfl
      rw [hnone] at hi
      cases hi
    rw [hold i hin] at hi
    refine (hf.up i li hi).imp_right fun hs => ?_
    rw [hold _ (hupn i li hi)]
    exact hs
  · have hin : i ≠ n := by
      rintro rfl
      rw [hnone] at hi
      cases hi
    rw [hold i hin] at hi
    exact hf.orphan i li hi hu
  · obtain ⟨r, hr⟩ := hf.acyclic
    exact ⟨r, fun i j ha => hr i j ((dropNode_above hn hup i j).mp ha)⟩

theorem relinkFrom_eq {i p old new : α} {pre post : List α} {h1 : Heap α}
    (hc : Chain nil h i (pre++p::old::post)) (hn : (pre++p::old::post).Nodup)
    (heq : ∀ x ∈ pre++[p], h1 x = h x) {fuel : ℕ} (hf : pre.length < fuel) :
    relinkFrom nil h1 old new fuel i = some (setNext h1 p new) := by
  induction pre generalizing i fuel with
  | nil =>
    obtain ⟨n, rfl⟩ := Nat.exists_eq_add_one_of_ne_zero (Nat.ne_of_gt hf)
    have hp1 := heq p (by simp)
    cases hc with
    | cons hp hne hrest =>
      have hnext := hrest.head
      simp [relinkFrom, hp1, hp, hnext]
  | cons q pre ih =>
    obtain ⟨n, rfl⟩ := Nat.exists_eq_add_one_of_ne_zero (Nat.ne_of_gt (Nat.zero_lt_of_lt hf))
    have hq1 := heq q (by simp)
    cases hc with
    | @cons _ lq _ hq hne hrest =>
      have hn' := List.nodup_cons.mp hn
      have hrestne : lq.next ≠ nil := by
        intro hx
        rw [hx] at hrest
        cases pre with
        | nil => cases hrest with | cons _ h _ => exact h rfl
        | cons r pre => cases hrest with | cons _ h _ => exact h rfl
      have hnext : lq.next ≠ old := by
        rintro rfl
        cases pre with
        | nil => simp [Chain.head hrest] at hn'
        | cons r pre => simp [Chain.head hrest] at hn'
      have hrec := ih hrest hn'.2 (fun x hx => heq x (List.mem_cons_of_mem q hx))
        (show pre.length < n by simpa using hf)
      simp [relinkFrom, hq1, hq, hnext, hrestne, hrec]

theorem adopt_eq {i new : α} {xs : List α} (hc : Chain nil h i xs) {fuel : ℕ}
    (hf : xs.length < fuel) : adopt nil new fuel i h =
      some fun j => if j ∈ xs then (h j).map fun l => { l with up := new } else h j := by
  induction xs generalizing i h fuel with
  | nil =>
    obtain ⟨n, rfl⟩ := Nat.exists_eq_add_one_of_ne_zero (Nat.ne_of_gt hf)
    cases hc
    simp [adopt]
  | cons x xs ih =>
    obtain ⟨n, rfl⟩ := Nat.exists_eq_add_one_of_ne_zero (Nat.ne_of_gt (Nat.zero_lt_of_lt hf))
    cases hc with
    | @cons _ l _ hi hne hxs =>
      have hc' : Chain nil (setUp h x new) l.next xs :=
        hxs.congr fun y _ => modify_field _ _ (by simp) x y
      rw [adopt, if_neg hne, hi]
      refine (ih hc' (by simpa using hf)).trans ?_
      rw [Option.some.injEq]
      ext1 j
      by_cases hj : j = x
      · subst hj
        by_cases hjx : j ∈ xs <;> simp [setUp, modify, hjx, hi]
      · simp [setUp, modify, hj]

theorem Chain.next_split {i x : α} {l : Links α} {xs : List α} (hc : Chain nil h i xs)
    (hx : x ∈ xs) (hl : h x = some l) (hne : l.next ≠ nil) :
    ∃ pre post, xs = pre++x::l.next::post := by
  induction hc with
  | nil => exact absurd hx List.not_mem_nil
  | @cons i li xs hi hin hxs ih =>
    by_cases hix : x = i
    · subst hix
      rw [hl, Option.some.injEq] at hi
      subst hi
      cases xs with
      | nil =>
        cases hxs
        exact absurd rfl hne
      | cons y ys => exact ⟨[], ys, by rw [hxs.head]; rfl⟩
    · obtain ⟨pre, post, hsplit⟩ := ih ((List.mem_cons.mp hx).resolve_left hix)
      exact ⟨i::pre, post, by rw [hsplit]; rfl⟩

omit [DecidableEq α] in
theorem Chain.next_eq {i p x : α} {lp : Links α} {pre post : List α}
    (hc : Chain nil h i (pre++p::x::post)) (hp : h p = some lp) : lp.next = x := by
  induction pre generalizing i with
  | nil =>
    cases hc with
    | cons hp' _ hrest =>
      rw [hp, Option.some.injEq] at hp'
      subst hp'
      exact hrest.head
  | cons q pre ih =>
    cases hc with
    | cons _ _ hrest => exact ih hrest

omit [DecidableEq α] in
theorem pred_unique {p q x : α} {pre pre' post post' : List α}
    (heq : pre++p::x::post = pre'++q::x::post') (hn : (pre++p::x::post).Nodup) : p = q := by
  induction pre generalizing pre' with
  | nil =>
    cases pre' with
    | nil => simp_all
    | cons r pre' =>
      cases pre' with
      | nil => simp_all
      | cons t pre' => simp_all
  | cons r pre ih =>
    cases pre' with
    | nil =>
      cases pre with
      | nil =>
        have hp : p = x := (List.cons.inj (List.cons.inj heq).2).1
        simp [hp] at hn
      | cons t pre =>
        have ht : t = x := (List.cons.inj (List.cons.inj heq).2).1
        simp [ht] at hn
    | cons t pre' =>
      simp only [List.cons_append, List.cons.injEq] at heq
      exact ih heq.2 (List.nodup_cons.mp hn).2

/-- A pointer to a node in a list is the one of the list that the node is in. -/
theorem IsForest.next_in_list (hf : IsForest nil h) {i : α} {l : Links α} (hi : h i = some l)
    {n : α} {ln : Links α} (hn : h n = some ln) (hnext : l.next = n) :
    l.up = ln.up ∧ l.up ≠ nil := by
  have hnn : n ≠ nil := hf.ne_nil (by simp [hn])
  have hup : l.up ≠ nil := by
    intro hu
    exact hnn (hnext.symm.trans (hf.orphan i l hi hu))
  obtain ⟨lp, hlp⟩ := Option.isSome_iff_exists.mp ((hf.up i l hi).resolve_left hup)
  obtain ⟨xs, hc, -, hmem⟩ := hf.listed.kids _ lp hlp
  obtain ⟨pre, post, hsplit⟩ := hc.next_split ((hmem i).mpr ⟨by simp [hi], upOf_eq nil hi⟩) hi
    (hnext ▸ hnn)
  have hin : n ∈ xs := by
    rw [hsplit, hnext]
    simp
  have := ((hmem n).mp hin).2
  rw [upOf_eq nil hn] at this
  exact ⟨this.symm, hup⟩

/-- The pointer in the parent's list, if there is a parent, is overwritten. -/
theorem relink_eq (hf : IsForest nil h) {old new : α} {l : Links α} (ho : h old = some l)
    (hn : h new = none) {fuel : ℕ} (hs : Small h fuel) :
    ∃ h2, relink nil fuel (moveNode h old new) l.up old new = some h2 ∧
      h2 new = some l ∧ h2 old = none ∧ ∀ j, j ≠ new → j ≠ old →
        h2 j = (h j).map fun lj => { lj with
          first := redirect old new lj.first
          next := redirect old new lj.next } := by
  have hon : old ≠ new := by
    rintro rfl
    rw [hn] at ho
    cases ho
  have hnew : moveNode h old new new = some l := by simp [moveNode, ho]
  have hmold : moveNode h old new old = none := by simp [moveNode, hon]
  have hmove : ∀ j, j ≠ new → j ≠ old → moveNode h old new j = h j := fun j h1 h2 => by
    simp [moveNode, h1, h2]
  have hvalid : ∀ x, (h x).isSome = true → x ≠ new := by
    rintro x hx rfl
    rw [hn] at hx
    cases hx
  have hsame : ∀ j lj, h j = some lj → lj.first ≠ old → lj.next ≠ old →
      h j = (h j).map fun lj => { lj with
        first := redirect old new lj.first
        next := redirect old new lj.next } := by
    intro j lj hj h1 h2
    rw [hj, Option.map_some]
    simp [redirect, h1, h2]
  have hfirst : ∀ j lj, h j = some lj → lj.first = old → l.up = j := by
    intro j lj hj hjf
    obtain ⟨xs, hc, -, hmem⟩ := hf.listed.kids j lj hj
    rw [hjf] at hc
    cases hc with
    | nil => exact absurd rfl (hf.ne_nil (by simp [ho]))
    | cons _ _ _ =>
      have := ((hmem old).mp List.mem_cons_self).2
      rwa [upOf_eq nil ho] at this
  rw [relink]
  by_cases hup : l.up = nil
  · refine ⟨moveNode h old new, if_pos hup, hnew, hmold, fun j hj1 hj2 => ?_⟩
    rw [hmove j hj1 hj2]
    cases hj : h j with
    | none => rfl
    | some lj =>
      rw [← hj]
      refine hsame j lj hj (fun hx => ?_) fun hx => ?_
      · have := hfirst j lj hj hx
        exact hf.ne_nil (by simp [hj]) (this.symm.trans hup)
      · have := hf.next_in_list hj ho hx
        exact this.2 (this.1.trans hup)
  · obtain ⟨lp, hp⟩ := Option.isSome_iff_exists.mp ((hf.up old l ho).resolve_left hup)
    have hpold : l.up ≠ old := by
      intro heq
      exact hf.irrefl ⟨l, ho, rfl, hup⟩ (heq ▸ .refl)
    have hpnew : l.up ≠ new := hvalid _ (by simp [hp])
    have hp1 : moveNode h old new l.up = some lp := (hmove _ hpnew hpold).trans hp
    obtain ⟨xs, hc, hnd, hmem⟩ := hf.listed.kids _ lp hp
    have hin : old ∈ xs := (hmem old).mpr ⟨by simp [ho], upOf_eq nil ho⟩
    have hlen : xs.length < fuel := hs xs hnd fun x hx => ((hmem x).mp hx).1
    obtain ⟨pre, post, rfl⟩ := List.append_of_mem hin
    rw [if_neg hup]
    rcases List.eq_nil_or_concat pre with rfl | ⟨pre', p, rfl⟩
    · have hpf : lp.first = old := hc.head
      refine ⟨setFirst (moveNode h old new) l.up new, by simp [hp1, hpf], ?_, ?_,
        fun j hj1 hj2 => ?_⟩
      · rw [setFirst, modify_ne hpnew.symm, hnew]
      · rw [setFirst, modify_ne hpold.symm, hmold]
      · by_cases hju : j = l.up
        · subst hju
          have hnx : lp.next ≠ old := fun hx => by
            have := hf.next_in_list hp ho hx
            exact hf.irrefl ⟨lp, hp, this.1, hup⟩ .refl
          rw [setFirst, modify_self hp1, hp, Option.map_some]
          simp [redirect, hpf, hnx]
        · rw [setFirst, modify_ne hju, hmove j hj1 hj2]
          cases hj : h j with
          | none => rfl
          | some lj =>
            rw [← hj]
            refine hsame j lj hj (fun hx => hju (hfirst j lj hj hx).symm) fun hx => ?_
            have := hf.next_in_list hj ho hx
            have hjin := (hmem j).mpr ⟨by simp [hj], (upOf_eq nil hj).trans this.1⟩
            obtain ⟨pre, post', hsplit⟩ := hc.next_split hjin hj (hx ▸ hf.ne_nil (by simp [ho]))
            rw [hx] at hsplit
            cases pre with
            | nil => exact hj2 (List.cons.inj hsplit).1.symm
            | cons q pre =>
              rw [hsplit] at hnd
              have hq : old = q := (List.cons.inj hsplit).1
              simp [hq] at hnd
    · simp only [List.concat_eq_append, List.append_assoc, List.singleton_append] at *
      have hpin := (hmem p).mp (by simp)
      have hpo : p ≠ old := by
        rintro rfl
        simp [List.nodup_append] at hnd
      have hpn : p ≠ new := hvalid p hpin.1
      have hpf : lp.first ≠ old := by
        rintro hx
        rw [hx] at hc
        cases pre' with
        | nil => exact hpo hc.head.symm
        | cons q pre' => simp [hc.head] at hnd
      have hpf' : lp.first ≠ nil := by
        intro hx
        rw [hx] at hc
        cases pre' with
        | nil => cases hc with | cons _ h _ => exact h rfl
        | cons q pre' => cases hc with | cons _ h _ => exact h rfl
      have hrel : relinkFrom nil (moveNode h old new) old new fuel lp.first
          = some (setNext (moveNode h old new) p new) := relinkFrom_eq hc hnd (fun x hx => by
        have hxin := (hmem x).mp (by
          rcases List.mem_append.mp hx with hx | hx
          · exact List.mem_append_left _ hx
          · rw [List.mem_singleton] at hx
            simp [hx])
        refine hmove x (hvalid x hxin.1) ?_
        intro hxo
        rw [hxo] at hx
        have hnot : old ∉ pre'++[p] := by
          have hmid : ((pre'++[p])++old::post).Nodup := by simpa using hnd
          intro hmem
          exact (List.nodup_cons.mp (List.nodup_middle.mp hmid)).1 (List.mem_append_left _ hmem)
        exact hnot hx) (by simp at hlen; omega)
      refine ⟨setNext (moveNode h old new) p new, by simp [hp1, hpf, hpf', hrel], ?_, ?_,
        fun j hj1 hj2 => ?_⟩
      · rw [setNext, modify_ne hpn.symm, hnew]
      · rw [setNext, modify_ne hpo.symm, hmold]
      · obtain ⟨lpp, hpp⟩ := Option.isSome_iff_exists.mp hpin.1
        have hpnext : lpp.next = old := hc.next_eq hpp
        by_cases hjp : j = p
        · subst hjp
          have hjf : lpp.first ≠ old := fun hx => by
            have := hfirst j lpp hpp hx
            have hju := hpin.2
            rw [upOf_eq nil hpp, this] at hju
            exact hf.irrefl ⟨lpp, hpp, hju, hf.ne_nil (by simp [hpp])⟩ .refl
          rw [setNext, modify_self ((hmove j hj1 hj2).trans hpp), hpp, Option.map_some]
          simp [redirect, hjf, hpnext]
        · rw [setNext, modify_ne hjp, hmove j hj1 hj2]
          cases hj : h j with
          | none => rfl
          | some lj =>
            rw [← hj]
            refine hsame j lj hj (fun hx => ?_) fun hx => ?_
            · have := hfirst j lj hj hx
              rw [this, hj, Option.some.injEq] at hp
              exact hpf (hp ▸ hx)
            · have := hf.next_in_list hj ho hx
              have hjin := (hmem j).mpr ⟨by simp [hj], (upOf_eq nil hj).trans this.1⟩
              obtain ⟨pre, post', hsplit⟩ := hc.next_split hjin hj (hx ▸ hf.ne_nil (by simp [ho]))
              rw [hx] at hsplit
              exact hjp (pred_unique hsplit hnd).symm

end
end Forest
