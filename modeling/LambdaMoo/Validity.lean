import LambdaMoo.Repairs

/-!
# What the validation accepts

Whatever the links of a table are, the validation ends, and it accepts the
repaired table if and only if both hierarchies are in order. `Finds` says what
a phase keeps and what makes it break; `Marked` is the mark that a child keeps
until the list of its own parent is gone through.
-/

set_option autoImplicit false

namespace LambdaMoo.DbFile
open LambdaMoo.Database.Db (deref)

variable {P : Type}

namespace Table

/-- An object lists another: it is in the children or the contents. -/
def Lists (t : Table P) (s : Side) (i c : Objid) : Prop :=
  ∃ o xs, t.find i = some o ∧ Chase.Trail nothing (t.linkAt s.across) (o.link s.down) xs ∧ c ∈ xs

/-- One of the two hierarchies is a forest. -/
structure Orderly (t : Table P) (s : Side) : Prop where
  chain : ∀ i o, t.find i = some o → Chase.NoCycle (t.linkAt s.up) (o.link s.up)
  list : ∀ i o, t.find i = some o → Chase.NoCycle (t.linkAt s.across) (o.link s.down)
  back : ∀ i c, t.Lists s i c → t.linkAt s.up c = some i
  once : ∀ c o, t.find c = some o → o.link s.up ≠ nothing → ∃ p xs, t.find (o.link s.up) = some p ∧
    Chase.Trail nothing (t.linkAt s.across) (p.link s.down) xs ∧ xs.count c = 1
  only : ∀ c o, t.find c = some o → ∀ i, t.Lists s i c → i = o.link s.up

variable {t : Table P}

/-- The links from an object end. -/
def Ends (t : Table P) (l : Link) (x : Objid) : Prop := ∃ xs, Chase.Trail nothing (t.linkAt l) x xs

/-- All four chains of an object end. -/
def ChainsEnd (t : Table P) (oid : Objid) : Prop :=
  ∀ o, t.find oid = some o → (t.Ends .parent o.parent ∧ t.Ends .sibling o.child) ∧
    t.Ends .location o.location ∧ t.Ends .next o.contents

theorem Linked.ends_iff (ht : t.Linked) {oid : Objid} {o : Object P} (ho : t.find oid = some o)
    (l field : Link) : t.Ends field (o.link l) ↔ Chase.NoCycle (t.linkAt field) (o.link l) :=
  Chase.ends_iff (t.linkAt_nothing field) (ht.closed field) t.fits (ht oid o ho l)

end Table

namespace Validation

/-- What the steps keep, and what makes them find the tables broken. -/
structure Finds (v v' : Validation P) (bad : Prop) : Prop where
  kept : v'.objects.clean = v.objects.clean
  broken : v'.broken = true ↔ v.broken = true ∨ bad

section Finds
variable {v v1 v2 : Validation P} {a b : Prop}

theorem Finds.refl (v : Validation P) : Finds v v False := ⟨rfl, by simp⟩

theorem Finds.trans (h1 : Finds v v1 a) (h2 : Finds v1 v2 b) : Finds v v2 (a ∨ b) where
  kept := h2.kept.trans h1.kept
  broken := by rw [h2.broken, h1.broken, or_assoc]

theorem Finds.congr (h : Finds v v1 a) (hab : a ↔ b) : Finds v v1 b := ⟨h.kept, by rw [h.broken, hab]⟩

theorem Finds.breaks (h : a) (r : Report) : Finds v (v.breaks r) a := ⟨rfl, by simp [Validation.breaks, h]⟩

theorem Finds.setFlags (v : Validation P) (oid : Objid) {f : BitVec 32 → BitVec 32}
    (hf : ∀ x, f x &&& ~~~temps = x &&& ~~~temps) : Finds v (v.setFlags oid f) False where
  kept := Table.clean_modify hf
  broken := by simp [Validation.setFlags, modify]

/-- The flags of an object, if it is there. -/
def flagsAt (v : Validation P) (oid : Objid) : Option (BitVec 32) := (v.objects.find oid).map (·.flags)

theorem flagsAt_setFlags (v : Validation P) (oid i : Objid) (f : BitVec 32 → BitVec 32) :
    (v.setFlags oid f).flagsAt i = if i = oid then (v.flagsAt i).map f else v.flagsAt i := by
  rw [flagsAt, flagsAt, setFlags, modify, Table.find_modify]
  split
  · rw [Option.map_map, Option.map_map]
    rfl
  · rfl

/-- An object is marked as lost in a hierarchy. -/
def Marked (v : Validation P) (s : Side) (i : Objid) : Prop := ∃ x, v.flagsAt i = some x ∧ x &&& s.bit ≠ 0

theorem marked_breaks (r : Report) (s : Side) (i : Objid) :
    (v.breaks r).Marked s i ↔ v.Marked s i := .rfl

/-- The mark of one hierarchy is taken from one object. -/
theorem marked_mask {s s' : Side} (hs : s ∈ [kinship, placement]) (hs' : s' ∈ [kinship, placement])
    (oid i : Objid) : (v.setFlags oid (· &&& ~~~s.bit)).Marked s' i ↔
      v.Marked s' i ∧ ¬(s' = s ∧ i = oid) := by
  rw [Marked, Marked, flagsAt_setFlags]
  split
  · next hi =>
    cases v.flagsAt i with
    | none => simp
    | some x =>
      simp only [Option.map_some, Option.some.injEq, exists_eq_left', hi, and_true, BitVec.and_assoc]
      simp only [List.mem_cons, List.not_mem_nil, or_false] at hs hs'
      rcases hs with rfl|rfl <;> rcases hs' with rfl|rfl
      · simp
      · rw [show ~~~kinship.bit &&& placement.bit = placement.bit by decide]
        simp [placement, kinship]
      · rw [show ~~~placement.bit &&& kinship.bit = kinship.bit by decide]
        simp [placement, kinship]
      · simp
  · next hi => simp [hi]

end Finds

section Phases
variable {t : Table P} {v : Validation P} (ht : t.Linked) (hk : v.objects.clean = t.clean)

section
include hk

theorem find_kept {oid : Objid} {o : Object P} (ho : v.objects.find oid = some o) :
    ∃ o', t.find oid = some o' ∧ ∀ l, o'.link l = o.link l := by
  obtain ⟨o', ho'⟩ := Option.isSome_iff_exists.mp
    ((Table.isSome_eq hk oid).symm.trans (by rw [ho]; rfl) : (t.find oid).isSome = true)
  refine ⟨o', ho', fun l => ?_⟩
  have := Table.link_eq hk l oid
  rw [ho, ho'] at this
  exact (Option.some.inj this).symm

theorem find_none (oid : Objid) : v.objects.find oid = none ↔ t.find oid = none := by
  have := Table.isSome_eq hk oid
  rw [← Option.not_isSome_iff_eq_none, this, Option.not_isSome_iff_eq_none]

end

include ht hk

theorem checkCycle_finds {oid : Objid} {o : Object P} (ho : t.find oid = some o)
    (start field : Link) : ∃ v', checkCycle oid v start field = .ok v' ∧
      v'.objects = v.objects ∧ Finds v v' ¬t.Ends field (o.link start) := by
  obtain ⟨ov, hov⟩ := Option.isSome_iff_exists.mp
    ((Table.isSome_eq hk oid).trans (by rw [ho]; rfl) : (v.objects.find oid).isSome = true)
  obtain ⟨o', ho', hlink⟩ := find_kept hk hov
  obtain rfl := Option.some.inj (ho.symm.trans ho')
  have hl : (fun i => (v.objects.find i).map (·.link field)) = t.linkAt field :=
    funext (Table.link_eq hk field)
  have hfuel : v.objects.fuel = t.fuel := by rw [Table.fuel, Table.fuel, Table.length_eq hk]
  obtain ⟨b, hb, hiff⟩ := Chase.meets_iff (ht.closed field) t.fits (ht oid o ho start)
  rw [checkCycle, hov, hl, hfuel]
  simp only [deref, bind, Except.bind, ← hlink, hb]
  cases b with
  | false => exact ⟨v, rfl, rfl, (Finds.refl v).congr (by simpa [Table.Ends] using hiff)⟩
  | true => exact ⟨v.breaks _, rfl, rfl, .breaks (hiff.mp rfl) _⟩

theorem checkCycles_finds (oid : Objid) : ∃ v', checkCycles v oid = .ok v' ∧
    Finds v v' ¬t.ChainsEnd oid ∧
    ∀ i, v'.flagsAt i = if i = oid then (v.flagsAt i).map (· ||| temps) else v.flagsAt i := by
  rw [checkCycles]
  split
  · next hn =>
    have hnone := (find_none hk oid).mp hn
    refine ⟨v, rfl, (Finds.refl v).congr (by simp [Table.ChainsEnd, hnone]), fun i => ?_⟩
    split
    · next hi =>
      rw [hi, flagsAt, hn]
      rfl
    · rfl
  · next ov hov =>
    obtain ⟨o, ho, hlink⟩ := find_kept hk hov
    obtain ⟨v1, h1, e1, f1⟩ := checkCycle_finds ht hk ho .parent .parent
    obtain ⟨v2, h2, e2, f2⟩ := checkCycle_finds ht (f1.kept.trans hk) ho .child .sibling
    obtain ⟨v3, h3, e3, f3⟩ :=
      checkCycle_finds ht ((f1.trans f2).kept.trans hk) ho .location .location
    obtain ⟨v4, h4, e4, f4⟩ :=
      checkCycle_finds ht (((f1.trans f2).trans f3).kept.trans hk) ho .contents .next
    have hobj : v4.objects = v.objects := e4.trans (e3.trans (e2.trans e1))
    refine ⟨v4.setFlags oid (· ||| temps), ?_, ?_, fun i => ?_⟩
    · simp only [h1, h2, h3, h4, bind, Except.bind, pure, Except.pure]
    · refine ((((f1.trans f2).trans f3).trans f4).trans (.setFlags v4 oid or_temps)).congr ?_
      have hc : t.ChainsEnd oid ↔ (t.Ends .parent o.parent ∧ t.Ends .sibling o.child) ∧
          t.Ends .location o.location ∧ t.Ends .next o.contents := by simp [Table.ChainsEnd, ho]
      rw [hc]
      simp only [Object.link]
      tauto
    · rw [flagsAt_setFlags, flagsAt, hobj]
      rfl

theorem foldlM_checkCycles (ids : List Objid) : ∃ v', ids.foldlM checkCycles v = .ok v' ∧
    Finds v v' (∃ oid ∈ ids, ¬t.ChainsEnd oid) ∧
    ∀ i, v'.flagsAt i = if i ∈ ids then (v.flagsAt i).map (· ||| temps) else v.flagsAt i := by
  induction ids generalizing v with
  | nil => exact ⟨v, rfl, (Finds.refl v).congr (by simp), by simp⟩
  | cons oid ids ih =>
    obtain ⟨v1, h1, f1, g1⟩ := checkCycles_finds ht hk oid
    obtain ⟨v2, h2, f2, g2⟩ := ih (f1.kept.trans hk)
    refine ⟨v2, ?_, (f1.trans f2).congr (by simp), fun i => ?_⟩
    · rw [List.foldlM_cons, h1]
      exact h2
    · rw [g2, g1]
      by_cases hi : i = oid
      · subst hi
        cases v.flagsAt i with
        | none => simp
        | some x => simp [BitVec.or_assoc]
      · simp [hi]

omit ht in
/-- The loop along one list clears the marks of those who are in it rightly. -/
theorem claim_finds {s : Side} (hs : s ∈ [kinship, placement]) {oid kid : Objid} {xs : List Objid}
    (hx : Chase.Trail nothing (t.linkAt s.across) kid xs) {fuel : ℕ} (hl : xs.length < fuel) :
    ∃ v', claim oid s fuel kid v = .ok v' ∧ Finds v v' (∃ c ∈ xs, t.linkAt s.up c ≠ some oid) ∧
      ∀ s' ∈ [kinship, placement], ∀ i, v'.Marked s' i ↔ v.Marked s' i ∧
        ¬(s' = s ∧ i ∈ xs ∧ t.linkAt s.up i = some oid) := by
  induction hx generalizing fuel v with
  | nil =>
    cases fuel with
    | zero => omega
    | succ fuel => exact ⟨v, by rw [claim, if_pos rfl], (Finds.refl v).congr (by simp), by simp⟩
  | @cons kid next xs hi hne _ ih =>
    cases fuel with
    | zero => omega
    | succ fuel =>
      obtain ⟨o, ho, rfl⟩ := Option.map_eq_some_iff.mp hi
      obtain ⟨ov, hov⟩ := Option.isSome_iff_exists.mp
        ((Table.isSome_eq hk kid).trans (by rw [ho]; rfl) : (v.objects.find kid).isSome = true)
      obtain ⟨o', ho', hlink⟩ := find_kept hk hov
      obtain rfl := Option.some.inj (ho.symm.trans ho')
      have hup : t.linkAt s.up kid = some (o.link s.up) := by rw [Table.linkAt, ho]; rfl
      have hlen : xs.length < fuel := by simpa using hl
      rw [claim, if_neg hne, hov]
      simp only [deref, bind, Except.bind, ← hlink]
      by_cases hu : o.link s.up = oid
      · rw [if_neg (by simpa using hu)]
        have f1 := Finds.setFlags v kid (f := (· &&& ~~~s.bit)) fun x => by
          rw [BitVec.and_assoc, bit_temps hs]
        obtain ⟨v', hv', f2, m2⟩ := ih (f1.kept.trans hk) hlen
        refine ⟨v', hv', (f1.trans f2).congr (by simp [hup, hu]), fun s' hs' i => ?_⟩
        rw [m2 s' hs', marked_mask hs hs']
        by_cases hik : i = kid
        · subst hik
          simp [hup, hu]
          tauto
        · simp [hik]
      · rw [if_pos hu]
        have f1 : Finds v (v.breaks (.erroneouslyOn kid oid s.down)) (o.link s.up ≠ oid) :=
          .breaks hu _
        obtain ⟨v', hv', f2, m2⟩ := ih (f1.kept.trans hk) hlen
        refine ⟨v', hv', (f1.trans f2).congr (by simp [hup]), fun s' hs' i => ?_⟩
        rw [m2 s' hs', marked_breaks]
        by_cases hik : i = kid
        · subst hik
          simp [hup, hu]
        · simp [hik]

/-- The trail along the list of an object, where it ends. -/
theorem claim_list {s : Side} (hs : s ∈ [kinship, placement]) {oid : Objid} {o : Object P}
    (ho : t.find oid = some o) (hend : t.Ends s.across (o.link s.down)) :
    ∃ v', claim oid s v.objects.fuel (o.link s.down) v = .ok v' ∧
      Finds v v' (∃ c, t.Lists s oid c ∧ t.linkAt s.up c ≠ some oid) ∧
      ∀ s' ∈ [kinship, placement], ∀ i, v'.Marked s' i ↔ v.Marked s' i ∧
        ¬(s' = s ∧ t.Lists s oid i ∧ t.linkAt s.up i = some oid) := by
  obtain ⟨xs, hx⟩ := hend
  have hfuel : v.objects.fuel = t.fuel := by rw [Table.fuel, Table.fuel, Table.length_eq hk]
  have hl : xs.length < v.objects.fuel := by
    rw [hfuel]
    exact t.fits xs hx.nodup (hx.live (ht.closed s.across) (ht oid o ho s.down))
  have hmem : ∀ c, t.Lists s oid c ↔ c ∈ xs := by
    intro c
    constructor
    · rintro ⟨o', ys, ho', hy, hc⟩
      obtain rfl := Option.some.inj (ho.symm.trans ho')
      rwa [hx.unique hy]
    · intro hc
      exact ⟨o, xs, ho, hx, hc⟩
  simp only [hmem]
  exact claim_finds hk hs hx hl

theorem claimAll_finds {oid : Objid} (hend : t.ChainsEnd oid) : ∃ v', claimAll v oid = .ok v' ∧
    Finds v v' (∃ s ∈ [kinship, placement], ∃ c, t.Lists s oid c ∧ t.linkAt s.up c ≠ some oid) ∧
    ∀ s ∈ [kinship, placement], ∀ i, v'.Marked s i ↔ v.Marked s i ∧
      ¬(t.Lists s oid i ∧ t.linkAt s.up i = some oid) := by
  rw [claimAll]
  split
  · next hn =>
    have hno : ∀ s c, ¬t.Lists s oid c := by
      rintro s c ⟨o, xs, ho, -, -⟩
      rw [(find_none hk oid).mp hn] at ho
      cases ho
    exact ⟨v, rfl, (Finds.refl v).congr (by simp [hno]), by simp [hno]⟩
  · next ov hov =>
    obtain ⟨o, ho, hlink⟩ := find_kept hk hov
    obtain ⟨⟨-, hkin⟩, -, hplace⟩ := hend o ho
    obtain ⟨v1, h1, f1, m1⟩ := claim_list (s := kinship) ht hk (by simp) ho hkin
    obtain ⟨v2, h2, f2, m2⟩ :=
      claim_list (s := placement) ht (f1.kept.trans hk) (by simp) ho hplace
    refine ⟨v2, ?_, (f1.trans f2).congr (by simp), fun s hs i => ?_⟩
    · rw [← hlink, ← hlink]
      exact bind_ok.mpr ⟨v1, h1, h2⟩
    · rw [m2 s hs, m1 s hs]
      simp only [List.mem_cons, List.not_mem_nil, or_false] at hs
      rcases hs with rfl|rfl
      · simp [kinship, placement]
      · simp [kinship, placement]

theorem foldlM_claims {ids : List Objid} (hend : ∀ oid ∈ ids, t.ChainsEnd oid) :
    ∃ v', ids.foldlM claimAll v = .ok v' ∧
      Finds v v' (∃ oid ∈ ids, ∃ s ∈ [kinship, placement], ∃ c, t.Lists s oid c ∧
        t.linkAt s.up c ≠ some oid) ∧
      ∀ s ∈ [kinship, placement], ∀ i, v'.Marked s i ↔ v.Marked s i ∧
        ¬∃ oid ∈ ids, t.Lists s oid i ∧ t.linkAt s.up i = some oid := by
  induction ids generalizing v with
  | nil => exact ⟨v, rfl, (Finds.refl v).congr (by simp), by simp⟩
  | cons oid ids ih =>
    obtain ⟨v1, h1, f1, m1⟩ := claimAll_finds ht hk (hend oid (by simp))
    obtain ⟨v2, h2, f2, m2⟩ := ih (f1.kept.trans hk) fun i hi => hend i (by simp [hi])
    refine ⟨v2, ?_, (f1.trans f2).congr (by simp), fun s hs i => ?_⟩
    · rw [List.foldlM_cons, h1]
      exact h2
    · rw [m2 s hs, m1 s hs]
      simp only [List.exists_mem_cons_iff, not_or, and_assoc]

end Phases

section Last
variable {t : Table P} {v : Validation P} (hk : v.objects.clean = t.clean)

theorem checkClaimed_finds (oid : Objid) (o : Object P) (s : Side) :
    Finds v (checkClaimed oid o v s) (o.flags &&& s.bit ≠ 0 ∧ o.link s.up ≠ nothing) ∧
      (checkClaimed oid o v s).objects = v.objects := by
  rw [checkClaimed]
  split
  · next h => exact ⟨.breaks h _, rfl⟩
  · next h => exact ⟨(Finds.refl v).congr (by simpa using h), rfl⟩

/-- An object that no list of its parent has is lost. -/
def Lost (t : Table P) (v : Validation P) (oid : Objid) : Prop :=
  ∃ s ∈ [kinship, placement], v.Marked s oid ∧ ∃ p, t.linkAt s.up oid = some p ∧ p ≠ nothing

include hk in
theorem checkChildren_finds (oid : Objid) : Finds v (v.checkChildren oid) (Lost t v oid) ∧
    ∀ i, (v.checkChildren oid).flagsAt i =
      if i = oid then (v.flagsAt i).map (· &&& ~~~temps) else v.flagsAt i := by
  rw [checkChildren]
  split
  · next hn =>
    have hno : v.flagsAt oid = none := by rw [flagsAt, hn]; rfl
    refine ⟨(Finds.refl v).congr (by simp [Lost, Marked, hno]), fun i => ?_⟩
    split
    · next hi =>
      rw [hi, hno]
      rfl
    · rfl
  · next ov hov =>
    obtain ⟨o, ho, hlink⟩ := find_kept hk hov
    have hflags : v.flagsAt oid = some ov.flags := by rw [flagsAt, hov]; rfl
    obtain ⟨f1, e1⟩ := checkClaimed_finds (v := v) oid ov kinship
    obtain ⟨f2, e2⟩ := checkClaimed_finds (v := checkClaimed oid ov v kinship) oid ov placement
    have f3 := Finds.setFlags (checkClaimed oid ov (checkClaimed oid ov v kinship) placement) oid
      (f := (· &&& ~~~temps)) fun x => by rw [BitVec.and_assoc, BitVec.and_self]
    refine ⟨((f1.trans f2).trans f3).congr ?_, fun i => ?_⟩
    · simp [Lost, Marked, hflags, Table.linkAt, ho, hlink]
    · rw [List.foldl_cons, List.foldl_cons, List.foldl_nil, flagsAt_setFlags, flagsAt, e2, e1]
      rfl

include hk in
theorem foldl_children {ids : List Objid} (hn : ids.Nodup) :
    Finds v (ids.foldl checkChildren v) (∃ oid ∈ ids, Lost t v oid) ∧
      ∀ i, (ids.foldl checkChildren v).flagsAt i =
        if i ∈ ids then (v.flagsAt i).map (· &&& ~~~temps) else v.flagsAt i := by
  induction ids generalizing v with
  | nil => exact ⟨(Finds.refl v).congr (by simp), by simp⟩
  | cons oid ids ih =>
    obtain ⟨hnot, hn⟩ := List.nodup_cons.mp hn
    obtain ⟨f1, g1⟩ := checkChildren_finds hk oid
    obtain ⟨f2, g2⟩ := ih (f1.kept.trans hk) hn
    have hlost : ∀ i ∈ ids, (Lost t (v.checkChildren oid) i ↔ Lost t v i) := by
      intro i hi
      have hne : i ≠ oid := fun heq => hnot (heq ▸ hi)
      simp only [Lost, Marked, g1, if_neg hne]
    refine ⟨(f1.trans f2).congr ?_, fun i => ?_⟩
    · rw [List.exists_mem_cons_iff]
      exact or_congr_right (exists_congr fun i => and_congr_right (hlost i))
    · rw [List.foldl_cons, g2, g1]
      by_cases hi : i = oid
      · subst hi
        simp [hnot]
      · simp [hi]

end Last

end Validation

open Validation

theorem ends_all {t : Table P} (ht : t.Linked) : (∀ oid ∈ t.objids, t.ChainsEnd oid) ↔
    ∀ s ∈ [kinship, placement], ∀ i o, t.find i = some o →
      Chase.NoCycle (t.linkAt s.up) (o.link s.up) ∧ Chase.NoCycle (t.linkAt s.across) (o.link s.down) := by
  constructor
  · intro h s hs i o ho
    rw [← ht.ends_iff ho, ← ht.ends_iff ho]
    have := h i (Table.mem_objids ho) o ho
    simp only [List.mem_cons, List.not_mem_nil, or_false] at hs
    rcases hs with rfl|rfl
    · exact this.1
    · exact this.2
  · intro h i _ o ho
    have hk := h kinship (by simp) i o ho
    have hp := h placement (by simp) i o ho
    rw [← ht.ends_iff ho, ← ht.ends_iff ho] at hk hp
    exact ⟨hk, hp⟩

/-- The lists of the objects have those in them that point back, and every child. -/
theorem orderly_iff {t : Table P} {s : Side}
    (hends : ∀ i o, t.find i = some o → Chase.NoCycle (t.linkAt s.up) (o.link s.up) ∧
      Chase.NoCycle (t.linkAt s.across) (o.link s.down)) :
    t.Orderly s ↔ (∀ i c, t.Lists s i c → t.linkAt s.up c = some i) ∧
      ∀ c p, t.linkAt s.up c = some p → p ≠ nothing → t.Lists s p c := by
  constructor
  · intro h
    refine ⟨h.back, fun c p hp hne => ?_⟩
    obtain ⟨o, ho, rfl⟩ := Option.map_eq_some_iff.mp hp
    obtain ⟨op, xs, hop, hx, hcount⟩ := h.once c o ho hne
    exact ⟨op, xs, hop, hx, List.count_pos_iff.mp (by omega)⟩
  · rintro ⟨hback, hall⟩
    refine ⟨fun i o ho => (hends i o ho).1, fun i o ho => (hends i o ho).2, hback, ?_, ?_⟩
    · intro c o ho hne
      obtain ⟨p, xs, hp, hx, hmem⟩ := hall c _ (by rw [Table.linkAt, ho]; rfl) hne
      exact ⟨p, xs, hp, hx, List.count_eq_one_of_mem hx.nodup hmem⟩
    · intro c o ho i hi
      have := hback i c hi
      rw [Table.linkAt, ho] at this
      exact (Option.some.inj this).symm

/-- After the lists have been gone through, those are lost that their own parent does not list. -/
theorem lost_iff {t : Table P} {v2 v3 : Validation P}
    (hmark : ∀ s ∈ [kinship, placement], ∀ i o, t.find i = some o → v2.Marked s i)
    (hm : ∀ s ∈ [kinship, placement], ∀ i, v3.Marked s i ↔ v2.Marked s i ∧
      ¬∃ oid ∈ t.objids, t.Lists s oid i ∧ t.linkAt s.up i = some oid) :
    (∃ oid ∈ t.objids, Lost t v3 oid) ↔ ∃ s ∈ [kinship, placement], ∃ c p,
      t.linkAt s.up c = some p ∧ p ≠ nothing ∧ ¬t.Lists s p c := by
  constructor
  · rintro ⟨c, -, s, hs, hmarked, p, hp, hne⟩
    refine ⟨s, hs, c, p, hp, hne, fun hlist => ?_⟩
    obtain ⟨o, xs, ho, hx, hc⟩ := hlist
    exact ((hm s hs c).mp hmarked).2 ⟨p, Table.mem_objids ho, ⟨o, xs, ho, hx, hc⟩, hp⟩
  · rintro ⟨s, hs, c, p, hp, hne, hno⟩
    obtain ⟨o, ho, -⟩ := Option.map_eq_some_iff.mp hp
    refine ⟨c, Table.mem_objids ho, s, hs, (hm s hs c).mpr ⟨hmark s hs c o ho, ?_⟩, p, hp, hne⟩
    rintro ⟨oid, -, hlist, hup⟩
    obtain rfl := Option.some.inj (hp.symm.trans hup)
    exact hno hlist

theorem marked_temps {v v' : Validation P} {ids : List Objid}
    (h : ∀ i, v'.flagsAt i = if i ∈ ids then (v.flagsAt i).map (· ||| temps) else v.flagsAt i)
    {s : Side} (hs : s ∈ [kinship, placement]) {i : Objid} (hi : i ∈ ids) {o : Object P}
    (ho : v.objects.find i = some o) : v'.Marked s i := by
  refine ⟨o.flags ||| temps, by rw [h, if_pos hi, flagsAt, ho]; rfl, fun hz => ?_⟩
  have hbit : temps &&& s.bit = s.bit ∧ s.bit ≠ 0 := by
    simp only [List.mem_cons, List.not_mem_nil, or_false] at hs
    rcases hs with rfl|rfl <;> decide
  rw [BitVec.and_or_distrib_right, hbit.1] at hz
  exact hbit.2 (BitVec.or_eq_zero_iff.mp hz).2

theorem cleared {v v' : Validation P} {ids : List Objid}
    (hids : ∀ i o, v'.objects.find i = some o → i ∈ ids)
    (h : ∀ i, v'.flagsAt i = if i ∈ ids then (v.flagsAt i).map (· &&& ~~~temps) else v.flagsAt i) :
    v'.objects.Unmarked := by
  intro i o ho
  have hflags := h i
  rw [if_pos (hids i o ho), flagsAt, ho] at hflags
  obtain ⟨x, -, hx⟩ := Option.map_eq_some_iff.mp hflags.symm
  rw [show o.flags = x &&& ~~~temps from hx.symm, BitVec.and_assoc, show ~~~temps &&& temps = 0 by decide]
  exact BitVec.and_zero

/-- What the phases look for, in the words of the two hierarchies. -/
theorem fine_iff {t : Table P} :
    ¬((false = true ∨ ∃ oid ∈ t.objids, ∃ s ∈ [kinship, placement], ∃ c, t.Lists s oid c ∧
          t.linkAt s.up c ≠ some oid) ∨
        ∃ s ∈ [kinship, placement], ∃ c p, t.linkAt s.up c = some p ∧ p ≠ nothing ∧
          ¬t.Lists s p c) ↔
      ((∀ i c, t.Lists kinship i c → t.linkAt kinship.up c = some i) ∧
        ∀ c p, t.linkAt kinship.up c = some p → p ≠ nothing → t.Lists kinship p c) ∧
      (∀ i c, t.Lists placement i c → t.linkAt placement.up c = some i) ∧
        ∀ c p, t.linkAt placement.up c = some p → p ≠ nothing → t.Lists placement p c := by
  constructor
  · intro h
    have hback : ∀ s ∈ [kinship, placement], ∀ i c, t.Lists s i c → t.linkAt s.up c = some i := by
      intro s hs i c hlist
      by_contra hne
      obtain ⟨o, xs, ho, -⟩ := id hlist
      exact h (.inl (.inr ⟨i, Table.mem_objids ho, s, hs, c, hlist, hne⟩))
    have hall : ∀ s ∈ [kinship, placement], ∀ c p, t.linkAt s.up c = some p → p ≠ nothing →
        t.Lists s p c := by
      intro s hs c p hp hne
      by_contra hno
      exact h (.inr ⟨s, hs, c, p, hp, hne, hno⟩)
    exact ⟨⟨hback _ (by simp), hall _ (by simp)⟩, hback _ (by simp), hall _ (by simp)⟩
  · rintro ⟨hk, hp⟩
    have hboth : ∀ s ∈ [kinship, placement], (∀ i c, t.Lists s i c → t.linkAt s.up c = some i) ∧
        ∀ c p, t.linkAt s.up c = some p → p ≠ nothing → t.Lists s p c := by
      intro s hs
      simp only [List.mem_cons, List.not_mem_nil, or_false] at hs
      rcases hs with rfl|rfl
      · exact hk
      · exact hp
    rintro ((h|⟨oid, -, s, hs, c, hlist, hne⟩)|⟨s, hs, c, p, hup, hne, hno⟩)
    · cases h
    · exact hne ((hboth s hs).1 oid c hlist)
    · exact hno ((hboth s hs).2 c p hup hne)

/-- The validation ends whatever the links are, and it accepts the repaired table if and only if
both hierarchies are in order; it leaves that table as it is, without the two temporary flags. -/
theorem validateHierarchies_right (t : Table P) (hsmall : t.length < 2^31) :
    ∃ ok v, validateHierarchies t = .ok (ok, v) ∧ (phase1 (start t)).objects = t.repaired ∧
      (ok = true ↔ t.repaired.Orderly kinship ∧ t.repaired.Orderly placement) ∧
      (ok = true → v.objects = t.repaired.clean ∧ v.objects.Unmarked) := by
  obtain ⟨hobj, hbroken⟩ := phase1_repairs hsmall
  have hl := t.linked_repaired
  have hids : (phase1 (start t)).objects.objids = t.repaired.objids := by rw [hobj]
  obtain ⟨v2, h2, f2, g2⟩ :=
    foldlM_checkCycles hl (congrArg Table.clean hobj) t.repaired.objids
  have hphase2 : phase2 (phase1 (start t)) = .ok v2 := by rw [phase2, hids, h2]
  have hk2 : v2.objects.clean = t.repaired.clean := by rw [f2.kept, hobj]
  have hends := ends_all hl
  have hb2 : v2.broken = true ↔ ¬∀ oid ∈ t.repaired.objids, t.repaired.ChainsEnd oid := by
    rw [f2.broken, hbroken]
    simp
  by_cases hcyc : ∀ oid ∈ t.repaired.objids, t.repaired.ChainsEnd oid
  · have hfine : v2.broken = false := by
      rw [← Bool.not_eq_true, hb2]
      simpa using hcyc
    obtain ⟨v3, h3, f3, m3⟩ := foldlM_claims hl hk2 hcyc
    have hids2 : v2.objects.objids = t.repaired.objids := by
      rw [Table.objids, Table.objids, Table.length_eq hk2]
    have hphase3 : phase3a v2 = .ok v3 := by rw [phase3a, hids2, h3]
    have hk3 := f3.kept.trans hk2
    have hids3 : v3.objects.objids = t.repaired.objids := by
      rw [Table.objids, Table.objids, Table.length_eq hk3]
    obtain ⟨f4, g4⟩ := foldl_children hk3
      (objids_nodup (show t.repaired.length < 2^31 by rwa [Table.length_repaired]))
    refine ⟨!v3.phase3b.broken, v3.phase3b, ?_, hobj, ?_, ?_⟩
    · rw [validateHierarchies, show Validation.phase1 ⟨t, false, 0, []⟩ = phase1 (start t) from rfl]
      simp only [hphase2, hphase3, hfine, bind, Except.bind, Bool.false_eq_true, if_false]
      rfl
    · rw [Bool.not_eq_true', ← Bool.not_eq_true, show v3.phase3b =
        t.repaired.objids.foldl checkChildren v3 by rw [phase3b, hids3], f4.broken, f3.broken, hfine]
      have hmark : ∀ s ∈ [kinship, placement], ∀ i o, t.repaired.find i = some o → v2.Marked s i :=
        fun s hs i o ho => marked_temps g2 hs (Table.mem_objids ho) (hobj ▸ ho)
      rw [lost_iff hmark m3, orderly_iff (hends.mp hcyc kinship (by simp)),
        orderly_iff (hends.mp hcyc placement (by simp))]
      exact fine_iff
    · intro _
      have hz : v3.phase3b.objects.Unmarked := by
        rw [phase3b, hids3]
        exact cleared (fun i o ho => by
          obtain ⟨o', ho', -⟩ := find_kept (f4.kept.trans hk3) ho
          exact Table.mem_objids ho') g4
      have hk4 : v3.phase3b.objects.clean = t.repaired.clean := by
        rw [phase3b, hids3]
        exact f4.kept.trans hk3
      refine ⟨?_, hz⟩
      rw [← hk4, hz.clean_eq]
      rwa [Table.length_eq hk4, Table.length_repaired]
  · have hbad : v2.broken = true := hb2.mpr hcyc
    refine ⟨false, v2, ?_, hobj, ?_, fun h => absurd h (by simp)⟩
    · rw [validateHierarchies, show Validation.phase1 ⟨t, false, 0, []⟩ = phase1 (start t) from rfl]
      simp only [hphase2, hbad, bind, Except.bind, if_true]
      rfl
    · simp only [Bool.false_eq_true, false_iff]
      rintro ⟨hk, hp⟩
      apply hcyc
      rw [hends]
      intro s hs i o ho
      simp only [List.mem_cons, List.not_mem_nil, or_false] at hs
      rcases hs with rfl|rfl
      · exact ⟨hk.chain i o ho, hk.list i o ho⟩
      · exact ⟨hp.chain i o ho, hp.list i o ho⟩

/-- An object that is its own parent. -/
def ouroboros : Object Unit where
  name := ⟨[], noNul_nil⟩
  flags := 0
  owner := 0
  location := nothing
  contents := nothing
  next := nothing
  parent := 0
  child := 0
  sibling := nothing
  verbdefs := []
  propdefs := []
  propval := []

theorem ouroboros_refused : ∃ v, validateHierarchies [some ouroboros] = .ok (false, v) := by
  obtain ⟨ok, v, hr, -, hiff, -⟩ := validateHierarchies_right [some ouroboros] (by decide)
  cases ok with
  | false => exact ⟨v, hr⟩
  | true =>
    have hk := (hiff.mp rfl).1
    exact absurd (.single rfl) (hk.chain 0 _ rfl 0 .refl)

end LambdaMoo.DbFile
