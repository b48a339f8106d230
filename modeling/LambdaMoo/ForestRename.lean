import LambdaMoo.ForestNode

/-!
# Renaming a node

Overwriting the pointers to a node renames it everywhere, and a forest stays
one under a change of addresses.
-/

set_option autoImplicit false

namespace Forest

section
variable {α : Type} [DecidableEq α] {nil : α} {h h' : Heap α}

/-- The loops that rename a node rename its address in the whole heap. -/
theorem rename_eq (hf : IsForest nil h) {old new : α} {l : Links α} (ho : h old = some l)
    (hn : h new = none) {fuel : ℕ} (hs : Small h fuel) :
    rename nil fuel h old new = some (relabel h old new) := by
  obtain ⟨h2, hr, hnew, hold, hother⟩ := relink_eq hf ho hn hs
  have hon : old ≠ new := by
    rintro rfl
    rw [hn] at ho
    cases ho
  have hnn : old ≠ nil := hf.ne_nil (by simp [ho])
  obtain ⟨xs, hc, hnd, hmem⟩ := hf.children ho
  have hlen : xs.length < fuel := hs xs hnd fun x hx =>
    (hf.above_isSome ((hmem x).mp hx)).1
  have hxn : ∀ x ∈ xs, x ≠ new ∧ x ≠ old := by
    intro x hx
    have ha := (hmem x).mp hx
    refine ⟨?_, ?_⟩
    · rintro rfl
      have := (hf.above_isSome ha).1
      rw [hn] at this
      cases this
    · rintro rfl
      exact hf.irrefl ha .refl
  have hnext : ∀ x ∈ xs, (h2 x).map (·.next) = (h x).map (·.next) := by
    intro x hx
    have ha := (hmem x).mp hx
    obtain ⟨lx, hlx, hux, -⟩ := ha
    rw [hother x (hxn x hx).1 (hxn x hx).2, hlx]
    have hne : lx.next ≠ old := by
      intro heq
      have := (hf.next_in_list hlx ho heq).1
      rw [hux] at this
      exact hf.irrefl ⟨l, ho, this.symm, hnn⟩ .refl
    simp [redirect, hne]
  have hadopt : adopt nil new fuel l.first h2 = _ := adopt_eq (hc.congr hnext) hlen
  rw [rename, ho]
  refine (congrArg (fun x => x >>= adopt nil new fuel l.first) hr).trans (hadopt.trans ?_)
  rw [Option.some.injEq]
  ext1 j
  by_cases hj1 : j = new
  · subst hj1
    have hup : l.up ≠ old := fun heq => hf.irrefl ⟨l, ho, heq, hnn⟩ .refl
    have hfirst : l.first ≠ old := by
      intro heq
      rw [heq] at hc
      cases hc with
      | nil => exact hnn rfl
      | cons _ _ _ => exact (hxn old List.mem_cons_self).2 rfl
    have hnx : l.next ≠ old := by
      intro heq
      have hu := (hf.next_in_list ho ho heq).2
      obtain ⟨lp, hlp⟩ := Option.isSome_iff_exists.mp ((hf.up old l ho).resolve_left hu)
      obtain ⟨ys, hcy, hny, hmy⟩ := hf.listed.kids _ lp hlp
      obtain ⟨pre, post, hsplit⟩ := hcy.next_split ((hmy old).mpr ⟨by simp [ho], upOf_eq nil ho⟩) ho
        (heq ▸ hnn)
      rw [hsplit, heq] at hny
      simp [List.nodup_append] at hny
    have hjx : j ∉ xs := fun hx => (hxn j hx).1 rfl
    simp [hjx, hnew, relabel, ho, Links.redirect, redirect, hup, hfirst, hnx]
  · by_cases hj2 : j = old
    · subst hj2
      have hjx : j ∉ xs := fun hx => (hxn j hx).2 rfl
      simp [hjx, hold, relabel, hj1]
    · rw [hother j hj1 hj2]
      cases hj : h j with
      | none =>
        simp [relabel, hj1, hj2, hj]
      | some lj =>
        by_cases hjx : j ∈ xs
        · obtain ⟨lj', hlj', hu, -⟩ := (hmem j).mp hjx
          rw [hj, Option.some.injEq] at hlj'
          subst hlj'
          simp [relabel, hj1, hj2, hj, hjx, Links.redirect, redirect, hu]
        · have hu : lj.up ≠ old := fun heq => hjx ((hmem j).mpr ⟨lj, hj, heq, hnn⟩)
          simp [relabel, hj1, hj2, hj, hjx, Links.redirect, redirect, hu]

section relabel
variable {old new : α} {l : Links α}

theorem relabel_redirect (hon : old ≠ new) (i : α) (hi : i ≠ new) :
    relabel h old new (redirect old new i) = (h i).map (Links.redirect old new) := by
  by_cases hio : i = old
  · subst hio
    simp [relabel, redirect]
  · simp [relabel, redirect, hio, hi]

theorem redirect_inj {x y : α} (hx : x ≠ new) (hy : y ≠ new)
    (heq : redirect old new x = redirect old new y) : x = y := by
  unfold redirect at heq
  by_cases hxo : x = old <;> by_cases hyo : y = old <;> simp_all

/-- The nodes of a relabelled heap are those of the heap. -/
theorem relabel_node (hon : old ≠ new) (hn : h new = none) {j : α} {lj : Links α}
    (hj : relabel h old new j = some lj) :
    ∃ i li, j = redirect old new i ∧ h i = some li ∧ lj = li.redirect old new ∧ i ≠ new := by
  by_cases hj1 : j = new
  · subst hj1
    simp only [relabel, if_pos, Option.map_eq_some_iff] at hj
    obtain ⟨li, hli, rfl⟩ := hj
    exact ⟨old, li, by simp [redirect], hli, rfl, hon⟩
  · by_cases hj2 : j = old
    · subst hj2
      simp [relabel, hon] at hj
    · simp only [relabel, hj1, hj2, if_false, Option.map_eq_some_iff] at hj
      obtain ⟨li, hli, rfl⟩ := hj
      exact ⟨j, li, by simp [redirect, hj2], hli, rfl, hj1⟩

theorem relabel_chain (hon : old ≠ new) (hn : h new = none) (hnil : nil ≠ old) (hnew : new ≠ nil)
    {i : α} {xs : List α} (hc : Chain nil h i xs) :
    Chain nil (relabel h old new) (redirect old new i) (xs.map (redirect old new)) := by
  induction hc with
  | nil =>
    rw [redirect, if_neg hnil]
    exact .nil
  | @cons i li xs hi hne hxs ih =>
    have hin : i ≠ new := by
      rintro rfl
      rw [hn] at hi
      cases hi
    refine .cons (l := li.redirect old new) ?_ ?_ ih
    · rw [relabel_redirect hon i hin, hi, Option.map_some]
    · by_cases hio : i = old
      · simp [redirect, hio, hnew]
      · simpa [redirect, hio] using hne

theorem IsForest.relabel (hf : IsForest nil h) (ho : h old = some l) (hn : h new = none)
    (hnew : new ≠ nil) : IsForest nil (relabel h old new) := by
  have hon : old ≠ new := by
    rintro rfl
    rw [hn] at ho
    cases ho
  have hnil : nil ≠ old := (hf.ne_nil (by simp [ho])).symm
  have hvalid : ∀ x, (h x).isSome = true → x ≠ new := by
    rintro x hx rfl
    rw [hn] at hx
    cases hx
  have hred : redirect old new nil = nil := by simp [redirect, hnil]
  have hsome : ∀ i, i ≠ new →
      (Forest.relabel h old new (redirect old new i)).isSome = (h i).isSome := by
    intro i hi
    rw [relabel_redirect hon i hi, Option.isSome_map]
  refine ⟨⟨?_, fun j lj hj => ?_⟩, fun j lj hj => ?_, fun j lj hj hu => ?_, ?_⟩
  · rw [← hred, relabel_redirect hon nil hnew.symm, hf.listed.nothing]
    rfl
  · obtain ⟨i, li, rfl, hi, rfl, hin⟩ := relabel_node hon hn hj
    obtain ⟨xs, hc, hnd, hmem⟩ := hf.listed.kids i li hi
    have hxn : ∀ x ∈ xs, x ≠ new := fun x hx => hvalid x ((hmem x).mp hx).1
    refine ⟨xs.map (redirect old new), relabel_chain hon hn hnil hnew hc,
      hnd.map_on fun x hx y hy heq => redirect_inj (hxn x hx) (hxn y hy) heq, fun c => ?_⟩
    rw [List.mem_map]
    constructor
    · rintro ⟨x, hx, rfl⟩
      have hx' := (hmem x).mp hx
      obtain ⟨lx, hlx⟩ := Option.isSome_iff_exists.mp hx'.1
      refine ⟨by rw [hsome x (hxn x hx)]; exact hx'.1, ?_⟩
      have hr : Forest.relabel h old new (redirect old new x) = some (lx.redirect old new) := by
        rw [relabel_redirect hon x (hxn x hx), hlx, Option.map_some]
      rw [upOf_eq nil hr, Links.redirect, ← hx'.2, upOf_eq nil hlx]
    · rintro ⟨hcs, hcu⟩
      obtain ⟨lc, hlc⟩ := Option.isSome_iff_exists.mp hcs
      obtain ⟨x, lx, rfl, hx, rfl, hxnew⟩ := relabel_node hon hn hlc
      rw [upOf_eq nil hlc] at hcu
      have hux : lx.up ≠ new := by
        intro heq
        have := (hf.up x lx hx).resolve_left (heq ▸ hnew)
        exact hvalid _ this heq
      exact ⟨x, (hmem x).mpr ⟨by simp [hx], (upOf_eq nil hx).trans (redirect_inj hux hin hcu)⟩, rfl⟩
  · obtain ⟨i, li, rfl, hi, rfl, hin⟩ := relabel_node hon hn hj
    rcases hf.up i li hi with hu | hu
    · exact .inl (by rw [Links.redirect, hu, hred])
    · exact .inr (by rw [Links.redirect, hsome _ (hvalid _ hu)]; exact hu)
  · obtain ⟨i, li, rfl, hi, rfl, hin⟩ := relabel_node hon hn hj
    have hup : li.up ≠ new := by
      intro heq
      have := (hf.up i li hi).resolve_left (heq ▸ hnew)
      exact hvalid _ this heq
    have : li.up = nil := redirect_inj hup hnew.symm (by rw [hred]; exact hu)
    rw [Links.redirect, hf.orphan i li hi this, hred]
  · obtain ⟨r, hr⟩ := hf.acyclic
    refine ⟨fun j => if j = new then r old else r j, fun a b hab => ?_⟩
    have hs : ∀ i, i ≠ new → (if redirect old new i = new then r old else r (redirect old new i)) =
        r i := by
      intro i hi
      by_cases hio : i = old
      · simp [redirect, hio]
      · simp [redirect, hio, hi]
    obtain ⟨la, hla, hua, hbn⟩ := hab
    obtain ⟨i, li, rfl, hi, rfl, hin⟩ := relabel_node hon hn hla
    have hup : li.up ≠ new := by
      intro heq
      have := (hf.up i li hi).resolve_left (heq ▸ hnew)
      exact hvalid _ this heq
    have hub : li.up ≠ nil := by
      intro heq
      exact hbn (by rw [← hua, Links.redirect, heq, hred])
    dsimp only
    rw [← hua, Links.redirect, hs _ hup, hs _ hin]
    exact hr i li.up ⟨li, hi, rfl, hub⟩

end relabel
end
end Forest
