import LambdaMoo.ForestNode
import LambdaMoo.ObjectTable

/-!
# The validation accepts what is in order

The validation changes nothing but the two temporary flags of a table whose
parents and locations are forests, and it clears them again. `clean` forgets
the two flags: it stays as it is from phase to phase.
-/

set_option autoImplicit false

namespace Forest

variable {α : Type} {nil : α} {h : Heap α}

theorem IsForest.first_isSome (hf : IsForest nil h) {i : α} {l : Links α} (hi : h i = some l) :
    l.first = nil ∨ (h l.first).isSome = true := by
  obtain ⟨xs, hc, -, -⟩ := hf.listed.kids i l hi
  generalize l.first = j at hc
  cases hc with
  | nil => exact .inl rfl
  | cons hj _ _ => exact .inr (by simp [hj])

theorem IsForest.next_isSome [DecidableEq α] (hf : IsForest nil h) {i : α} {l : Links α} (hi : h i = some l) :
    l.next = nil ∨ (h l.next).isSome = true := by
  by_cases hn : l.next = nil
  · exact .inl hn
  · have hup : l.up ≠ nil := fun hu => hn (hf.orphan i l hi hu)
    obtain ⟨lp, hlp⟩ := Option.isSome_iff_exists.mp ((hf.up i l hi).resolve_left hup)
    obtain ⟨xs, hc, -, hmem⟩ := hf.listed.kids _ lp hlp
    obtain ⟨pre, post, hsplit⟩ :=
      hc.next_split ((hmem i).mpr ⟨by simp [hi], upOf_eq nil hi⟩) hi hn
    exact .inr ((hmem l.next).mp (by simp [hsplit])).1

theorem Chain.trail {i : α} {xs : List α} (hc : Chain nil h i xs) :
    Chase.Trail nil (fun i => (h i).map (·.next)) i xs := by
  induction hc with
  | nil => exact .nil
  | cons hi hne _ ih => exact .cons (by simp [hi]) hne ih

/-- The links up from a node end before the fuel does. -/
theorem IsForest.trail (hf : IsForest nil h) {fuel : ℕ} (hs : Small h fuel) {i : α}
    (hi : i = nil ∨ (h i).isSome = true) :
    ∃ xs, Chase.Trail nil (fun i => (h i).map (·.up)) i xs ∧ xs.length < fuel := by
  obtain ⟨r, hr, hb⟩ := hf.rank hs
  suffices hlong : ∀ n i, (h i).isSome = true → r i < n →
      ∃ xs, Chase.Trail nil (fun i => (h i).map (·.up)) i xs ∧ xs.length ≤ r i+1 by
    rcases hi with rfl|hi
    · exact ⟨[], .nil, hs [] (by simp) (by simp)⟩
    · obtain ⟨xs, hx, hl⟩ := hlong (r i+1) i hi (Nat.lt_succ_self _)
      exact ⟨xs, hx, Nat.lt_of_le_of_lt hl (hb i hi)⟩
  intro n
  induction n with
  | zero => intro i _ hlt; omega
  | succ n ih =>
    intro i hi hlt
    obtain ⟨l, hl⟩ := Option.isSome_iff_exists.mp hi
    rcases hf.up i l hl with hu|hu
    · refine ⟨[i], .cons (j := nil) (by simp [hl, hu]) (hf.ne_nil hi) .nil, by simp⟩
    · have hlow := hr i l.up ⟨l, hl, rfl, hf.ne_nil hu⟩
      obtain ⟨xs, hx, hlen⟩ := ih l.up hu (by omega)
      exact ⟨i::xs, .cons (by simp [hl]) (hf.ne_nil hi) hx, by simp; omega⟩

end Forest

namespace LambdaMoo.DbFile
open LambdaMoo.Database.Db (deref)
open Forest

variable {P : Type}

namespace Table

theorem find_eq {t : Table P} {oid : Objid} {o : Object P} :
    t.find oid = some o ↔ 0 ≤ oid.toInt ∧ t[oid.toNat]? = some (some o) := by
  rw [find]
  split
  · next hb =>
    constructor
    · intro h
      cases h
    · rintro ⟨h0, h⟩
      have hlt := (List.getElem?_eq_some_iff.mp h).1
      have hn := oid.toInt_eq_toNat_cond
      have hb' := oid.isLt
      split at hn <;> omega
  · next hb =>
    rw [Option.join_eq_some_iff]
    constructor
    · intro h
      exact ⟨by omega, h⟩
    · exact And.right

theorem find_ofNat {t : Table P} (ht : t.length < 2^31) {i : ℕ} (hi : i < t.length)
    {x : Option (Object P)} (hx : t[i]? = some x) : t.find (BitVec.ofNat 64 i) = x := by
  have hn : (BitVec.ofNat 64 i).toNat = i := by
    rw [BitVec.toNat_ofNat, Nat.mod_eq_of_lt (by omega)]
  have hz : (BitVec.ofNat 64 i).toInt = i := by
    rw [BitVec.toInt_eq_toNat_of_lt (by omega), hn]
  rw [find, if_neg (by omega), hn, hx]
  rfl

theorem find_nothing (t : Table P) : t.find nothing = none := by
  rw [find, if_pos (Or.inl (by decide))]

/-- The numbers of objects are those that the loops go through. -/
theorem mem_objids {t : Table P} {oid : Objid} {o : Object P} (h : t.find oid = some o) :
    oid ∈ t.objids := by
  obtain ⟨-, h⟩ := find_eq.mp h
  have hlt := (List.getElem?_eq_some_iff.mp h).1
  exact List.mem_map.mpr ⟨oid.toNat, List.mem_range.mpr hlt, by simp⟩

theorem heap_small (t : Table P) (s : Side) : Small (t.heap s) t.fuel := by
  intro xs hn hx
  have hsub : xs.map BitVec.toNat ⊆ List.range t.length := by
    intro n hmem
    obtain ⟨x, hxs, rfl⟩ := List.mem_map.mp hmem
    obtain ⟨l, hl⟩ := Option.isSome_iff_exists.mp (hx x hxs)
    obtain ⟨o, ho, -⟩ := Option.map_eq_some_iff.mp hl
    exact List.mem_range.mpr (List.getElem?_eq_some_iff.mp (find_eq.mp ho).2).1
  have hnd : (xs.map BitVec.toNat).Nodup := hn.map fun _ _ => BitVec.eq_of_toNat_eq
  have := (hnd.subperm hsub).length_le
  simp only [List.length_map, List.length_range] at this
  exact Nat.lt_succ_of_le this

theorem find_map (t : Table P) (i : Objid) (f : Object P → Object P) :
    Table.find (t.map (Option.map f)) i = (t.find i).map f := by
  rw [find, find, List.length_map]
  split
  · rfl
  · rw [List.getElem?_map]
    cases t[i.toNat]? with
    | none => rfl
    | some x => rfl

@[simp] theorem link_flags (o : Object P) (x : BitVec 32) (l : Link) :
    ({o with flags := x} : Object P).link l = o.link l := by
  cases l <;> rfl

/-- The table without the two temporary flags. -/
def clean (t : Table P) : Table P :=
  t.map (Option.map fun o => {o with flags := o.flags &&& ~~~temps})

theorem clean_length (t : Table P) : t.clean.length = t.length := by simp [clean]

theorem find_clean (t : Table P) (i : Objid) :
    t.clean.find i = (t.find i).map fun o => {o with flags := o.flags &&& ~~~temps} :=
  t.find_map i _

section Kept
variable {t t' : Table P} (h : t'.clean = t.clean)
include h

theorem length_eq : t'.length = t.length := by
  rw [← clean_length, h, clean_length]

/-- The same objects are there, with the same links. -/
theorem link_eq (l : Link) (i : Objid) : (t'.find i).map (·.link l) = (t.find i).map (·.link l) := by
  have hi := congrArg (fun u => (Table.find u i).map (·.link l)) h
  simpa only [find_clean, Option.map_map, Function.comp_def, link_flags] using hi

theorem isSome_eq (i : Objid) : (t'.find i).isSome = (t.find i).isSome := by
  have hi := congrArg Option.isSome (link_eq h .next i)
  simpa using hi

theorem heap_eq (s : Side) : t'.heap s = t.heap s := by
  have hi : ∀ (u : Table P), u.clean.heap s = u.heap s := by
    intro u
    funext i
    simp only [heap, find_clean, Option.map_map, Function.comp_def, link_flags]
  rw [← hi t', h, hi]

end Kept

theorem clean_modify {t : Table P} {i : Objid} {f : BitVec 32 → BitVec 32}
    (hf : ∀ x, f x &&& ~~~temps = x &&& ~~~temps) :
    (t.modify i fun o => {o with flags := f o.flags}).clean = t.clean := by
  apply List.ext_getElem?
  intro n
  simp only [clean, modify, List.getElem?_map, List.getElem?_modify]
  split
  · cases t[n]? with
    | none => rfl
    | some x =>
      cases x with
      | none => rfl
      | some o => simp [hf]
  · simp

theorem find_modify (t : Table P) (i j : Objid) (f : Object P → Object P) :
    (t.modify i f).find j = if j = i then (t.find j).map f else t.find j := by
  have hlen : (t.modify i f).length = t.length := List.length_modify _ _ _
  rw [find, find, hlen]
  by_cases hb : j.toInt < 0 ∨ (t.length:ℤ) ≤ j.toInt
  · simp [hb]
  · rw [if_neg hb, if_neg hb]
    split
    · next h =>
      subst h
      rw [modify, List.getElem?_modify_eq]
      cases t[j.toNat]? with
      | none => rfl
      | some x => rfl
    · next h =>
      have hn : i.toNat ≠ j.toNat := fun heq => h (BitVec.eq_of_toNat_eq heq.symm)
      rw [modify, List.getElem?_modify_ne _ _ hn]

/-- No object has a temporary flag. -/
def Unmarked (t : Table P) : Prop := ∀ i o, t.find i = some o → o.flags &&& temps = 0

theorem and_not_of_and {x m : BitVec 32} (h : x &&& m = 0) : x &&& ~~~m = x := by
  ext i hi
  have hb : (x &&& m)[i] = (0#32)[i] := by simp [h]
  rw [BitVec.getElem_and, BitVec.getElem_zero] at hb
  rw [BitVec.getElem_and, BitVec.getElem_not]
  cases hx : x[i] with
  | false => rfl
  | true =>
    rw [hx, Bool.true_and] at hb
    rw [hb]
    rfl

theorem Unmarked.clean_eq {t : Table P} (h : t.Unmarked) (ht : t.length < 2^31) : t.clean = t := by
  apply List.ext_getElem?
  intro n
  rw [clean, List.getElem?_map]
  cases hn : t[n]? with
  | none => rfl
  | some x =>
    cases x with
    | none => rfl
    | some o =>
      have hlt := (List.getElem?_eq_some_iff.mp hn).1
      have hz := h _ o (find_ofNat ht hlt hn)
      simp [and_not_of_and hz]

end Table

/-- The two hierarchies of the objects are in order. -/
structure Hierarchical (t : Table P) : Prop where
  small : t.length < 2^31
  kin : IsForest nothing (t.heap kinship)
  place : IsForest nothing (t.heap placement)
  unmarked : t.Unmarked

theorem Hierarchical.side {t : Table P} (ht : Hierarchical t) {s : Side}
    (hs : s ∈ [kinship, placement]) : IsForest nothing (t.heap s) := by
  simp only [List.mem_cons, List.not_mem_nil, or_false] at hs
  rcases hs with rfl|rfl
  · exact ht.kin
  · exact ht.place

theorem bit_temps {s : Side} (hs : s ∈ [kinship, placement]) :
    ~~~s.bit &&& ~~~temps = ~~~temps := by
  simp only [List.mem_cons, List.not_mem_nil, or_false] at hs
  rcases hs with rfl|rfl <;> decide

namespace Validation

def start (t : Table P) : Validation P := ⟨t, false, 0, []⟩

section Phase1
variable {t : Table P} (ht : Hierarchical t)
include ht

/-- Every link of an object leads to an object, or to none. -/
theorem link_isSome {i : Objid} {o : Object P} (hi : t.find i = some o) (l : Link) :
    o.link l = nothing ∨ (t.find (o.link l)).isSome = true := by
  have hk : t.heap kinship i = some ⟨o.parent, o.child, o.sibling⟩ := by
    rw [Table.heap, hi]
    rfl
  have hp : t.heap placement i = some ⟨o.location, o.contents, o.next⟩ := by
    rw [Table.heap, hi]
    rfl
  have hs : ∀ s j, (t.heap s j).isSome = (t.find j).isSome := by simp [Table.heap]
  cases l with
  | parent => exact hs _ _ ▸ ht.kin.up i _ hk
  | child => exact hs _ _ ▸ ht.kin.first_isSome hk
  | sibling => exact hs _ _ ▸ ht.kin.next_isSome hk
  | location => exact hs _ _ ▸ ht.place.up i _ hp
  | contents => exact hs _ _ ▸ ht.place.first_isSome hp
  | next => exact hs _ _ ▸ ht.place.next_isSome hp

theorem checkValid_eq (oid : Objid) (l : Link) : checkValid oid (start t) l = start t := by
  rw [checkValid]
  split
  · rfl
  · next o ho =>
    apply if_neg
    rintro ⟨hne, hnone⟩
    rcases link_isSome ht ho l with h|h
    · exact hne h
    · rw [Option.isNone_iff_eq_none] at hnone
      simp only [start] at hnone
      simp [hnone] at h

theorem checkNext_eq (oid : Objid) : checkNext oid (start t) = start t := by
  rw [checkNext]
  split
  · rfl
  · next o ho =>
    apply if_neg
    rintro ⟨hloc, hnext⟩
    have hp : t.heap placement oid = some ⟨o.location, o.contents, o.next⟩ := by
      rw [Table.heap, show t.find oid = some o from ho]
      rfl
    exact hnext (ht.place.orphan oid _ hp hloc)

theorem phase1_eq : phase1 (start t) = start t := by
  have hstep : ∀ oid, links.foldl (checkValid oid) ((start t).checkNext oid) = start t := by
    intro oid
    rw [checkNext_eq ht]
    exact List.foldl_fixed' (checkValid_eq ht oid) links
  have hfold : (start t).objects.objids.foldl
      (fun v oid => links.foldl (checkValid oid) (v.checkNext oid)) (start t) = start t :=
    List.foldl_fixed' (f := fun v oid => links.foldl (checkValid oid) (v.checkNext oid)) hstep _
  rw [phase1, hfold]
  rfl

end Phase1

/-- Nothing is found wrong, and only temporary flags are changed. -/
structure Fine (t : Table P) (v : Validation P) : Prop where
  kept : v.objects.clean = t.clean
  whole : v.broken = false
  silent : v.log = []

section Steps
variable {t : Table P} {v : Validation P}

theorem Fine.fuel_eq (h : Fine t v) : v.objects.fuel = t.fuel := by
  rw [Table.fuel, Table.fuel, Table.length_eq h.kept]

theorem Fine.objids_eq (h : Fine t v) : v.objects.objids = t.objids := by
  rw [Table.objids, Table.objids, Table.length_eq h.kept]

theorem Fine.setFlags (h : Fine t v) (oid : Objid) {f : BitVec 32 → BitVec 32}
    (hf : ∀ x, f x &&& ~~~temps = x &&& ~~~temps) : Fine t (v.setFlags oid f) where
  kept := (Table.clean_modify hf).trans h.kept
  whole := h.whole
  silent := h.silent

/-- The links that a hierarchy has for an object are those of the table at the start. -/
theorem Fine.heap (h : Fine t v) {oid : Objid} {o : Object P} (ho : v.objects.find oid = some o)
    (s : Side) : t.heap s oid = some ⟨o.link s.up, o.link s.down, o.link s.across⟩ := by
  rw [← Table.heap_eq h.kept, Table.heap, ho]
  rfl

theorem checkCycle_eq (h : Fine t v) {oid : Objid} {o : Object P}
    (ho : v.objects.find oid = some o) {start field : Link} {xs : List Objid}
    (hx : Chase.Trail nothing (fun i => (t.find i).map (·.link field)) (o.link start) xs)
    (hl : xs.length < t.fuel) : checkCycle oid v start field = .ok v := by
  have hlink : (fun i => (v.objects.find i).map (·.link field)) =
      fun i => (t.find i).map (·.link field) := funext (Table.link_eq h.kept field)
  have hm := Chase.meets_false t.fuel hx hx (Nat.le_refl _) (by omega)
  rw [checkCycle, ho, hlink, h.fuel_eq]
  simp only [deref, bind, Except.bind, hm]
  rfl

section Chains
variable {s : Side} (hf : IsForest nothing (t.heap s)) {oid : Objid} {l : Links Objid}
  (hl : t.heap s oid = some l)
include hf hl

theorem up_trail : ∃ xs, Chase.Trail nothing (fun i => (t.find i).map (·.link s.up)) l.up xs ∧
    xs.length < t.fuel := by
  have hmap : (fun i => (t.heap s i).map (·.up)) = fun i => (t.find i).map (·.link s.up) := by
    funext i
    rw [Table.heap, Option.map_map]
    rfl
  have := hf.trail (t.heap_small s) (hf.up oid l hl)
  rwa [hmap] at this

theorem down_trail : ∃ xs, Chase.Trail nothing (fun i => (t.find i).map (·.link s.across)) l.first xs ∧
    xs.length < t.fuel := by
  have hmap : (fun i => (t.heap s i).map (·.next)) =
      fun i => (t.find i).map (·.link s.across) := by
    funext i
    rw [Table.heap, Option.map_map]
    rfl
  obtain ⟨xs, hc, hn, hmem⟩ := hf.listed.kids oid l hl
  exact ⟨xs, hmap ▸ hc.trail, t.heap_small s xs hn fun x hx => ((hmem x).mp hx).1⟩

end Chains

theorem or_temps (x : BitVec 32) : (x ||| temps) &&& ~~~temps = x &&& ~~~temps := by
  ext i hi
  simp only [BitVec.getElem_and, BitVec.getElem_or, BitVec.getElem_not]
  cases temps[i] <;> simp

theorem checkCycles_fine (ht : Hierarchical t) (h : Fine t v) (oid : Objid) :
    ∃ v', checkCycles v oid = .ok v' ∧ Fine t v' := by
  rw [checkCycles]
  split
  · exact ⟨v, rfl, h⟩
  · next o ho =>
    obtain ⟨_, h1, l1⟩ := up_trail ht.kin (h.heap ho kinship)
    obtain ⟨_, h2, l2⟩ := down_trail ht.kin (h.heap ho kinship)
    obtain ⟨_, h3, l3⟩ := up_trail ht.place (h.heap ho placement)
    obtain ⟨_, h4, l4⟩ := down_trail ht.place (h.heap ho placement)
    have e1 : checkCycle oid v .parent .parent = .ok v := checkCycle_eq h ho h1 l1
    have e2 : checkCycle oid v .child .sibling = .ok v := checkCycle_eq h ho h2 l2
    have e3 : checkCycle oid v .location .location = .ok v := checkCycle_eq h ho h3 l3
    have e4 : checkCycle oid v .contents .next = .ok v := checkCycle_eq h ho h4 l4
    refine ⟨v.setFlags oid (· ||| temps), ?_, h.setFlags oid or_temps⟩
    simp only [e1, e2, e3, e4, bind, Except.bind, pure, Except.pure]

/-- A loop over the objects keeps what each of its steps keeps. -/
theorem foldlM_keeps {σ : Type} {Q : σ → Prop} {step : σ → Objid → Result σ}
    (hstep : ∀ s oid, Q s → ∃ s', step s oid = .ok s' ∧ Q s') (ids : List Objid) {s : σ} (hs : Q s) :
    ∃ s', ids.foldlM step s = .ok s' ∧ Q s' := by
  induction ids generalizing s with
  | nil => exact ⟨s, rfl, hs⟩
  | cons oid ids ih =>
    obtain ⟨s1, h1, hs1⟩ := hstep s oid hs
    obtain ⟨s2, h2, hs2⟩ := ih hs1
    exact ⟨s2, by rw [List.foldlM_cons, h1]; exact h2, hs2⟩

theorem phase2_fine (ht : Hierarchical t) (h : Fine t v) :
    ∃ v', phase2 v = .ok v' ∧ Fine t v' :=
  foldlM_keeps (fun _ oid h => checkCycles_fine ht h oid) _ h

/-- The mark of a lost child is gone from an object. -/
def Claimed (v : Validation P) (s : Side) (i : Objid) : Prop :=
  ∀ o, v.objects.find i = some o → o.flags &&& s.bit = 0

theorem setFlags_flags {oid i : Objid} {f : BitVec 32 → BitVec 32} {o' : Object P}
    (h : (v.setFlags oid f).objects.find i = some o') :
    ∃ o, v.objects.find i = some o ∧ o'.flags = if i = oid then f o.flags else o.flags := by
  rw [setFlags, modify, Table.find_modify] at h
  split at h
  · next hi =>
    obtain ⟨o, ho, rfl⟩ := Option.map_eq_some_iff.mp h
    exact ⟨o, ho, by rw [if_pos hi]⟩
  · next hi => exact ⟨o', h, by rw [if_neg hi]⟩

/-- Flags that are taken away do not come back. -/
theorem Claimed.mask {s : Side} {i : Objid} (h : v.Claimed s i) (oid : Objid) (m : BitVec 32) :
    (v.setFlags oid (· &&& m)).Claimed s i := by
  intro o' ho'
  obtain ⟨o, ho, hflags⟩ := setFlags_flags ho'
  rw [hflags]
  split
  · rw [BitVec.and_assoc, BitVec.and_comm m, ← BitVec.and_assoc, h o ho]
    exact BitVec.zero_and
  · exact h o ho

theorem claimed_mask {s : Side} (oid : Objid) : (v.setFlags oid (· &&& ~~~s.bit)).Claimed s oid := by
  intro o' ho'
  obtain ⟨o, -, hflags⟩ := setFlags_flags ho'
  rw [hflags, if_pos rfl, BitVec.and_assoc]
  simp

/-- The list of an object's children claims them all. -/
theorem claim_fine {s : Side} (hbit : ~~~s.bit &&& ~~~temps = ~~~temps) {oid kid : Objid}
    {xs : List Objid} (hc : Chain nothing (t.heap s) kid xs) (hup : ∀ c ∈ xs, upOf nothing (t.heap s) c = oid)
    {fuel : ℕ} (hl : xs.length < fuel) (h : Fine t v) :
    ∃ v', claim oid s fuel kid v = .ok v' ∧ Fine t v' ∧ (∀ c ∈ xs, v'.Claimed s c) ∧
      ∀ s' i, v.Claimed s' i → v'.Claimed s' i := by
  induction hc generalizing fuel v with
  | nil =>
    cases fuel with
    | zero => omega
    | succ fuel => exact ⟨v, by rw [claim, if_pos rfl], h, by simp, fun _ _ => id⟩
  | @cons kid l xs hi hne _ ih =>
    cases fuel with
    | zero => omega
    | succ fuel =>
      have hsome : (v.objects.find kid).isSome = true := by
        rw [Table.isSome_eq h.kept]
        rw [Table.heap] at hi
        simpa using congrArg Option.isSome hi
      obtain ⟨okid, hk⟩ := Option.isSome_iff_exists.mp hsome
      obtain rfl := Option.some.inj ((h.heap hk s).symm.trans hi)
      have hu : okid.link s.up = oid := by
        have := hup kid (by simp)
        rwa [upOf_eq nothing hi] at this
      have hstep : Fine t (v.setFlags kid (· &&& ~~~s.bit)) :=
        h.setFlags kid fun x => by rw [BitVec.and_assoc, hbit]
      obtain ⟨v', hv', hfine, hclaimed, hkept⟩ := ih (fun c hc => hup c (by simp [hc]))
        (show xs.length < fuel by simpa using hl) hstep
      refine ⟨v', ?_, hfine, ?_, fun s' i hs => hkept s' i (hs.mask _ _)⟩
      · rw [claim, if_neg hne, hk]
        simp only [deref, bind, Except.bind, hu, ne_eq, not_true_eq_false, if_false]
        exact hv'
      · intro c hc
        rcases List.mem_cons.mp hc with rfl|hc
        · exact hkept s c (claimed_mask c)
        · exact hclaimed c hc

/-- Every child of an object is claimed, in both hierarchies. -/
def Takes (t : Table P) (v : Validation P) (oid : Objid) : Prop :=
  ∀ s ∈ [kinship, placement], ∀ c, Above nothing (t.heap s) c oid → v.Claimed s c

theorem claim_children (ht : Hierarchical t) (h : Fine t v) {s : Side}
    (hs : s ∈ [kinship, placement]) {oid : Objid} {l : Links Objid} (hl : t.heap s oid = some l) :
    ∃ v', claim oid s v.objects.fuel l.first v = .ok v' ∧ Fine t v' ∧
      (∀ c, Above nothing (t.heap s) c oid → v'.Claimed s c) ∧
      ∀ s' i, v.Claimed s' i → v'.Claimed s' i := by
  obtain ⟨xs, hc, hn, hmem⟩ := (ht.side hs).listed.kids oid l hl
  have hlen : xs.length < v.objects.fuel := by
    rw [h.fuel_eq]
    exact t.heap_small s xs hn fun x hx => ((hmem x).mp hx).1
  obtain ⟨v', hv', hfine, hclaimed, hkept⟩ :=
    claim_fine (bit_temps hs) hc (fun c hc => ((hmem c).mp hc).2) hlen h
  refine ⟨v', hv', hfine, ?_, hkept⟩
  rintro c ⟨lc, hlc, hup, -⟩
  exact hclaimed c ((hmem c).mpr ⟨by simp [hlc], by rw [upOf_eq nothing hlc, hup]⟩)

theorem claimAll_fine (ht : Hierarchical t) (h : Fine t v) (oid : Objid) :
    ∃ v', claimAll v oid = .ok v' ∧ Fine t v' ∧ Takes t v' oid ∧
      ∀ s i, v.Claimed s i → v'.Claimed s i := by
  rw [claimAll]
  split
  · next hn =>
    refine ⟨v, rfl, h, ?_, fun _ _ => id⟩
    intro s hs c hc
    exfalso
    have hsome := ((ht.side hs).above_isSome hc).2
    rw [← Table.heap_eq h.kept, Table.heap, hn] at hsome
    cases hsome
  · next o ho =>
    obtain ⟨v1, h1, hf1, hc1, hk1⟩ := claim_children ht h (by simp) (h.heap ho kinship)
    have hl : t.heap placement oid = _ := h.heap ho placement
    obtain ⟨v2, h2, hf2, hc2, hk2⟩ := claim_children ht hf1 (by simp) hl
    refine ⟨v2, bind_ok.mpr ⟨v1, h1, h2⟩, hf2, ?_, fun s i hs => hk2 s i (hk1 s i hs)⟩
    intro s hs c hc
    simp only [List.mem_cons, List.not_mem_nil, or_false] at hs
    rcases hs with rfl|rfl
    · exact hk2 _ c (hc1 c hc)
    · exact hc2 c hc

theorem foldlM_claimAll (ht : Hierarchical t) (ids : List Objid) (h : Fine t v) :
    ∃ v', ids.foldlM claimAll v = .ok v' ∧ Fine t v' ∧ (∀ oid ∈ ids, Takes t v' oid) ∧
      ∀ s i, v.Claimed s i → v'.Claimed s i := by
  induction ids generalizing v with
  | nil => exact ⟨v, rfl, h, by simp, fun _ _ => id⟩
  | cons oid ids ih =>
    obtain ⟨v1, h1, hf1, ht1, hk1⟩ := claimAll_fine ht h oid
    obtain ⟨v2, h2, hf2, ht2, hk2⟩ := ih hf1
    refine ⟨v2, ?_, hf2, ?_, fun s i hs => hk2 s i (hk1 s i hs)⟩
    · rw [List.foldlM_cons, h1]
      exact h2
    · intro i hi
      rcases List.mem_cons.mp hi with rfl|hi
      · exact fun s hs c hc => hk2 s c (ht1 s hs c hc)
      · exact ht2 i hi

/-- An object that is in another one is claimed. -/
def AllClaimed (v : Validation P) : Prop :=
  ∀ i o, v.objects.find i = some o → ∀ s ∈ [kinship, placement], o.link s.up ≠ nothing →
    o.flags &&& s.bit = 0

theorem phase3a_fine (ht : Hierarchical t) (h : Fine t v) :
    ∃ v', phase3a v = .ok v' ∧ Fine t v' ∧ v'.AllClaimed := by
  obtain ⟨v', hv', hf, htakes, -⟩ := foldlM_claimAll ht v.objects.objids h
  refine ⟨v', hv', hf, ?_⟩
  intro i o ho s hs hup
  have hl := hf.heap ho s
  have ha : Above nothing (t.heap s) i (o.link s.up) := ⟨_, hl, rfl, hup⟩
  have hsome := ((ht.side hs).above_isSome ha).2
  obtain ⟨p, hp⟩ := Option.isSome_iff_exists.mp (show (t.find (o.link s.up)).isSome = true by
    simpa [Table.heap] using hsome)
  exact htakes _ (h.objids_eq ▸ Table.mem_objids hp) s hs i ha o ho

theorem checkClaimed_eq (h : v.AllClaimed) {oid : Objid} {o : Object P}
    (ho : v.objects.find oid = some o) :
    [kinship, placement].foldl (checkClaimed oid o) v = v := by
  have hstep : ∀ s ∈ [kinship, placement], checkClaimed oid o v s = v := by
    intro s hs
    apply if_neg
    rintro ⟨hbit, hup⟩
    exact hbit (h oid o ho s hs hup)
  rw [List.foldl_cons, hstep _ (by simp), List.foldl_cons, hstep _ (by simp), List.foldl_nil]

theorem AllClaimed.setFlags (h : v.AllClaimed) (oid : Objid) (m : BitVec 32) :
    (v.setFlags oid (· &&& m)).AllClaimed := by
  intro i o' ho' s hs hup
  rw [Validation.setFlags, modify, Table.find_modify] at ho'
  split at ho'
  · obtain ⟨o, ho, rfl⟩ := Option.map_eq_some_iff.mp ho'
    rw [Table.link_flags] at hup
    have hz := h i o ho s hs hup
    rw [BitVec.and_assoc, BitVec.and_comm m, ← BitVec.and_assoc, hz]
    exact BitVec.zero_and
  · exact h i o' ho' s hs hup

/-- The temporary flags are cleared from the objects that the loop has been through. -/
theorem foldl_checkChildren (ids done : List Objid) (h : Fine t v) (hc : v.AllClaimed)
    (hd : ∀ i ∈ done, ∀ o, v.objects.find i = some o → o.flags &&& temps = 0) :
    Fine t (ids.foldl checkChildren v) ∧ ∀ i ∈ done ++ ids, ∀ o,
      (ids.foldl checkChildren v).objects.find i = some o → o.flags &&& temps = 0 := by
  induction ids generalizing v done with
  | nil => exact ⟨h, by simpa using hd⟩
  | cons oid ids ih =>
    have hstep : Fine t (v.checkChildren oid) ∧ (v.checkChildren oid).AllClaimed ∧
        ∀ i ∈ done ++ [oid], ∀ o, (v.checkChildren oid).objects.find i = some o →
          o.flags &&& temps = 0 := by
      rw [checkChildren]
      split
      · next hn =>
        refine ⟨h, hc, ?_⟩
        intro i hi o ho
        rcases List.mem_append.mp hi with hi|hi
        · exact hd i hi o ho
        · rw [List.mem_singleton.mp hi, hn] at ho
          cases ho
      · next o ho =>
        rw [checkClaimed_eq hc ho]
        refine ⟨h.setFlags oid fun x => by rw [BitVec.and_assoc, BitVec.and_self], hc.setFlags _ _, ?_⟩
        intro i hi o' ho'
        obtain ⟨o1, ho1, hflags⟩ := setFlags_flags ho'
        rw [hflags]
        split
        · rw [BitVec.and_assoc]
          exact BitVec.and_zero
        · next hne =>
          rcases List.mem_append.mp hi with hi|hi
          · exact hd i hi o1 ho1
          · exact absurd (List.mem_singleton.mp hi) hne
    have := ih (done ++ [oid]) hstep.1 hstep.2.1 hstep.2.2
    rw [List.append_assoc] at this
    exact this

theorem phase3b_fine (h : Fine t v) (hc : v.AllClaimed) :
    Fine t v.phase3b ∧ v.phase3b.objects.Unmarked := by
  obtain ⟨hf, hz⟩ := foldl_checkChildren v.objects.objids [] h hc (by simp)
  refine ⟨hf, fun i o ho => hz i ?_ o ho⟩
  rw [List.nil_append, h.objids_eq, ← hf.objids_eq]
  exact Table.mem_objids ho

end Steps

end Validation

/-- The validation accepts a table whose hierarchies are in order, leaves it as it is and reports
nothing. -/
theorem validateHierarchies_eq {t : Table P} (ht : Hierarchical t) :
    ∃ v, validateHierarchies t = .ok (true, v) ∧ v.objects = t ∧ v.log = [] := by
  have h0 : Validation.Fine t (Validation.start t) := ⟨rfl, rfl, rfl⟩
  obtain ⟨v2, h2, hf2⟩ := Validation.phase2_fine ht h0
  obtain ⟨v3, h3, hf3, hc3⟩ := Validation.phase3a_fine ht hf2
  obtain ⟨hf4, hz⟩ := Validation.phase3b_fine hf3 hc3
  refine ⟨v3.phase3b, ?_, ?_, hf4.silent⟩
  · rw [validateHierarchies, show Validation.phase1 ⟨t, false, 0, []⟩ = Validation.start t from
      Validation.phase1_eq ht]
    simp only [h2, h3, bind, Except.bind, hf2.whole, hf4.whole, Bool.false_eq_true, if_false]
    rfl
  · have hlen := Table.length_eq hf4.kept
    rw [← hz.clean_eq (hlen ▸ ht.small), hf4.kept, ht.unmarked.clean_eq ht.small]

end LambdaMoo.DbFile
