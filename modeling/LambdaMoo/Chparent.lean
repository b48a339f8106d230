import LambdaMoo.Locations

/-!
# Changing parents

The slots of an object and its descendants that are for definitions of the old
ancestors only are replaced by clear ones for those of the new ancestors only.
-/

set_option autoImplicit false

namespace LambdaMoo.Database
namespace Db

open Forest

/-- The slots of an object, if there is one. -/
def slots (db : Db) (i : ℤ) : List Pval :=
  match db.objects i with
  | some o => o.propval
  | none => []

theorem slots_some {db : Db} {i : ℤ} {o : Object} (h : db.objects i = some o) :
    db.slots i = o.propval := by
  simp [slots, h]

theorem uids_slots (db : Db) (i : ℤ) : db.uids i = (db.slots i).map (·.uid) := by
  rw [uids, slots]
  cases db.objects i <;> rfl

/-- An object with another parent, before the slots follow. -/
structure Adopted (db db1 : Db) (oid parent : ℤ) : Prop where
  size : db1.numObjects = db.numObjects
  uid : db1.nextUid = db.nextUid
  heap : db1.wpds = db.wpds ∧ db1.nextWpd = db.nextWpd
  isSome : ∀ i, (db1.objects i).isSome = (db.objects i).isSome
  each : ∀ i o, db.objects i = some o → ∃ l, db1.objects i = some { o with kin := l } ∧
    l.up = Function.update (fun _ => o.kin.up) oid parent i
  kin : IsForest nothing db1.kin

section Adopted
variable {db : Db} {oid parent : ℤ}

theorem setKin_adopted {hk : Heap ℤ} (table : Option (ℕ → List VcEntry))
    (hf : IsForest nothing hk)
    (hsome : ∀ i, (hk i).isSome = (db.objects i).isSome)
    (hup : ∀ i, upOf nothing hk i = Function.update (upOf nothing db.kin) oid parent i) :
    db.Adopted ({ db with vcTable := table }.setKin hk) oid parent := by
  refine ⟨rfl, rfl, ⟨rfl, rfl⟩, fun i => by simp [setKin, mapObjects], fun i o ho => ?_, ?_⟩
  · have hs := hsome i
    rw [ho, Option.isSome_some] at hs
    obtain ⟨l, hl⟩ := Option.isSome_iff_exists.mp hs
    refine ⟨l, by simp [setKin, mapObjects, ho, hl], ?_⟩
    have := hup i
    rw [upOf_eq nothing hl] at this
    rw [this]
    by_cases hi : i = oid
    · subst hi
      rw [Function.update_self, Function.update_self]
    · rw [Function.update_of_ne hi, Function.update_of_ne hi, upOf_eq nothing (kin_some ho)]
  · have he : ({ db with vcTable := table }.setKin hk).kin = hk := setKin_kin hsome
    rw [he]
    exact hf

variable {db1 : Db} (h1 : db.Adopted db1 oid parent)
include h1

theorem Adopted.back {i : ℤ} {o1 : Object} (ho1 : db1.objects i = some o1) :
    ∃ o, db.objects i = some o ∧ o1.place = o.place ∧ o1.propdefs = o.propdefs ∧
      o1.propval = o.propval ∧ o1.kin.up = Function.update (fun _ => o.kin.up) oid parent i := by
  have hs := h1.isSome i
  rw [ho1, Option.isSome_some] at hs
  obtain ⟨o, ho⟩ := Option.isSome_iff_exists.mp hs.symm
  obtain ⟨l, ho2, hup⟩ := h1.each i o ho
  obtain rfl := Option.some.inj (ho1.symm.trans ho2)
  exact ⟨o, ho, rfl, rfl, rfl, hup⟩

theorem Adopted.field {β : Type} (g : Object → β)
    (hg : ∀ o o1 : Object, o1.place = o.place → o1.propval = o.propval → g o1 = g o) (i : ℤ) :
    (db1.objects i).map g = (db.objects i).map g := by
  cases ho : db.objects i with
  | none =>
    have hs := h1.isSome i
    rw [ho, Option.isSome_none, Option.isSome_eq_false_iff, Option.isNone_iff_eq_none] at hs
    rw [hs]
  | some o =>
    obtain ⟨l, ho1, -⟩ := h1.each i o ho
    rw [ho1]
    exact congrArg some (hg o _ rfl rfl)

theorem Adopted.place_eq : db1.place = db.place := by
  funext i
  exact h1.field (·.place) (fun _ _ hp _ => hp) i

theorem Adopted.uids_eq (i : ℤ) : db1.uids i = db.uids i := by
  have hf := h1.field (·.propval) (fun _ _ _ hv => hv) i
  cases ho : db.objects i with
  | none =>
    rw [ho, Option.map_none, Option.map_eq_none_iff] at hf
    rw [uids_none ho, uids_none hf]
  | some o =>
    obtain ⟨l, ho1, -⟩ := h1.each i o ho
    rw [uids_some ho, uids_some ho1]

theorem Adopted.slots_eq (i : ℤ) : db1.slots i = db.slots i := by
  have hf := h1.field (·.propval) (fun _ _ _ hv => hv) i
  rw [slots, slots]
  cases hx : db1.objects i <;> cases hy : db.objects i <;> simp_all

theorem Adopted.above {i j : ℤ} (ha : Above nothing db1.kin i j) :
    i = oid ∧ j = parent ∨ i ≠ oid ∧ Above nothing db.kin i j := by
  obtain ⟨o1, ho1, hup, hn⟩ := above_iff.mp ha
  obtain ⟨o, ho, -, -, -, hu⟩ := h1.back ho1
  by_cases hi : i = oid
  · subst hi
    rw [Function.update_self] at hu
    exact .inl ⟨rfl, hup.symm.trans hu⟩
  · rw [Function.update_of_ne hi] at hu
    exact .inr ⟨hi, above_iff.mpr ⟨o, ho, hu.symm.trans hup, hn⟩⟩

/-- A line up stays what it was or leads through the new parent. -/
theorem Adopted.below {i j : ℤ} (hb : Below nothing db1.kin i j) :
    Below nothing db.kin i j ∨ Below nothing db.kin i oid ∧ Below nothing db.kin parent j := by
  induction hb using Relation.ReflTransGen.head_induction_on with
  | refl => exact .inl .refl
  | head ha _ ih =>
    rcases h1.above ha with ⟨rfl, rfl⟩|⟨-, ha⟩
    · rcases ih with hb|⟨-, hb⟩
      · exact .inr ⟨.refl, hb⟩
      · exact .inr ⟨.refl, hb⟩
    · rcases ih with hb|⟨hb, hp⟩
      · exact .inl (.head ha hb)
      · exact .inr ⟨.head ha hb, hp⟩

theorem Adopted.named (h : db.Named)
    (hapart : ∀ i j oi oj, db.objects i = some oi → db.objects j = some oj →
      Below nothing db.kin i oid → Below nothing db.kin parent j → ∀ p ∈ oi.propdefs,
        ∀ q ∈ oj.propdefs, p.name.str.fold ≠ q.name.str.fold) : db1.Named := by
  refine ⟨fun i j oi oj hi hj hb p hp q hq he => ?_, fun i oi hi p hp => ?_, fun i oi hi => ?_,
    fun i j oi oj hi hj p hp q hq he => ?_⟩
  · obtain ⟨oi', hi', -, hpi, -⟩ := h1.back hi
    obtain ⟨oj', hj', -, hpj, -⟩ := h1.back hj
    rw [hpi] at hp
    rw [hpj] at hq
    rcases h1.below hb with hb|⟨hb, hpar⟩
    · exact h.apart i j oi' oj' hi' hj' hb p hp q hq he
    · exact absurd he (hapart i j oi' oj' hi' hj' hb hpar p hp q hq)
  · obtain ⟨oi', hi', -, hpi, -⟩ := h1.back hi
    rw [h1.uid]
    exact h.made i oi' hi' p (hpi ▸ hp)
  · obtain ⟨oi', hi', -, hpi, -⟩ := h1.back hi
    rw [hpi]
    exact h.once i oi' hi'
  · obtain ⟨oi', hi', -, hpi, -⟩ := h1.back hi
    obtain ⟨oj', hj', -, hpj, -⟩ := h1.back hj
    exact h.single i j oi' oj' hi' hj' p (hpi ▸ hp) q (hpj ▸ hq) he

end Adopted

/-- The slots that come, those that go and those that stay where one parent takes the place of
another. -/
structure Exchange (db : Db) (new old : ℤ) (ns os cs : List ℕ) : Prop where
  comes : db.uids new = ns++cs
  goes : db.uids old = os++cs
  stays : ∀ i o, db.objects i = some o → (db.objects new).isSome = true →
    (db.objects old).isSome = true → Below nothing db.kin new i → Below nothing db.kin old i →
      ∀ p ∈ o.propdefs, p.uid ∈ cs

section Common
variable {db : Db} (hf : IsForest nothing db.kin) {oid : ℤ}
  (hord : ∀ i o, db.objects i = some o → i ≠ oid →
    db.uids i = o.propdefs.map (·.uid)++db.uids o.kin.up)
include hf hord

theorem ordered_above {i : ℤ} (hi : ¬Below nothing db.kin i oid) {chain : List (ℤ × Object)}
    (hl : db.Lineage i chain) :
    ∀ a ∈ chain, db.uids a.1 = a.2.propdefs.map (·.uid)++db.uids a.2.kin.up := by
  intro a ha
  obtain ⟨hao, -, hb⟩ := (hl.mem hf).mp ha
  refine hord a.1 a.2 hao ?_
  rintro rfl
  exact hi hb

theorem count_above {i : ℤ} (hi : ¬Below nothing db.kin i oid) :
    db.countProperties i = .ok (db.uids i).length := by
  obtain ⟨chain, -, hl⟩ := ancestors_eq hf i
  exact hl.count (ordered_above hf hord hi hl) hf

/-- Two objects have the slots of their nearest common ancestor last, and these are the slots of all
their common ancestors. -/
theorem commonProps_eq {new old : ℤ} (hnew : ¬Below nothing db.kin new oid)
    (hold : ¬Below nothing db.kin old oid) :
    ∃ ns os cs, db.Exchange new old ns os cs ∧ db.commonProps new old = .ok cs.length := by
  obtain ⟨news, hn, hln⟩ := ancestors_eq hf new
  obtain ⟨olds, ho, hlo⟩ := ancestors_eq hf old
  cases hfind : news.find? fun a => olds.any (·.1 = a.1) with
  | none =>
    refine ⟨db.uids new, db.uids old, [], ⟨by simp, by simp, ?_⟩, ?_⟩
    · intro i o hi hsn hso hbn hbo p hp
      have hno := List.find?_eq_none.mp hfind (i, o) ((hln.mem hf).mpr ⟨hi, hsn, hbn⟩)
      exact absurd (List.any_eq_true.mpr ⟨(i, o), (hlo.mem hf).mpr ⟨hi, hso, hbo⟩, by simp⟩) hno
    · refine bind_ok.mpr ⟨olds, ho, bind_ok.mpr ⟨news, hn, ?_⟩⟩
      rw [hfind]
      rfl
  | some a =>
    have ha := List.mem_of_find?_eq_some hfind
    have hany := List.find?_some hfind
    rw [List.any_eq_true] at hany
    obtain ⟨b, hb, hba⟩ := hany
    have hba : b.1 = a.1 := of_decide_eq_true hba
    obtain ⟨ns, hns⟩ := hln.uids_tail (ordered_above hf hord hnew hln) ha
    obtain ⟨os, hos⟩ := hlo.uids_tail (ordered_above hf hord hold hlo) hb
    rw [hba] at hos
    refine ⟨ns, os, db.uids a.1, ⟨hns, hos, ?_⟩, ?_⟩
    · intro i o hi hsn hso hbn hbo p hp
      obtain ⟨-, pre, post, rfl, hpre⟩ := List.find?_eq_some_iff_append.mp hfind
      have hmem : (i, o) ∈ pre++a::post := (hln.mem hf).mpr ⟨hi, hsn, hbn⟩
      have hafter : (i, o) ∈ a::post := by
        rcases List.mem_append.mp hmem with hx|hx
        · have hany : olds.any (·.1 = i) = true :=
            List.any_eq_true.mpr ⟨(i, o), (hlo.mem hf).mpr ⟨hi, hso, hbo⟩, by simp⟩
          have := hpre (i, o) hx
          simp [hany] at this
        · exact hx
      have hrest := hln.rest.uids fun b hb =>
        ordered_above hf hord hnew hln b (List.mem_append_right _ hb)
      rw [hrest]
      exact List.mem_flatMap.mpr ⟨(i, o), hafter, List.mem_map_of_mem hp⟩
    · refine bind_ok.mpr ⟨olds, ho, bind_ok.mpr ⟨news, hn, ?_⟩⟩
      rw [hfind]
      apply count_above hf hord
      exact fun hx => hnew (.trans ((hln.mem hf).mp ha).2.2 hx)

end Common

/-- A slot as a child of some owner gets it. -/
def inherit (owner : ℤ) (pv : Pval) : Pval :=
  { pv with var := .clear, owner := if pv.perms.chown then owner else pv.owner }

theorem inherit_inherit (a b : ℤ) (pv : Pval) : inherit a (inherit b pv) = inherit a pv := by
  rw [inherit, inherit, inherit]
  by_cases h : pv.perms.chown = true <;> simp [h]

/-- An object whose slots behind the first `loc` are replaced: `old` of them go, and these come. -/
def refill (old common : ℕ) (news : List Pval) (loc : ℕ) (o : Object) : Object := { o with
  waifPropdefs := none
  propval := o.propval.take loc++news.map (inherit o.owner)++(o.propval.drop (loc+old)).take common }

theorem fixProps_eq {db : Db} {oid : ℤ} {me : Object} (hme : db.objects oid = some me)
    {old new common loc : ℕ} {news : List Pval}
    (hnew : loc-me.propdefs.length+new ≤ (db.slots me.kin.up).length)
    (hnews : (((db.slots me.kin.up).drop (loc-me.propdefs.length)).take new).map
      (inherit me.owner) = news.map (inherit me.owner))
    (hlen : loc+old+common ≤ me.propval.length) :
    ∃ f, fixProps old new common db oid loc = .ok (db.modify oid f) ∧
      f me = refill old common news loc me := by
  refine ⟨fun o => { o with
    waifPropdefs := none
    propval := o.propval.take loc++news.map (inherit me.owner)++
      (o.propval.drop (loc+old)).take common }, ?_, rfl⟩
  rw [← hnews, fixProps]
  refine bind_ok.mpr ⟨me, object_ok hme, ?_⟩
  dsimp only
  by_cases h0 : new = 0
  · rw [if_pos h0, h0, List.take_zero, List.map_nil]
    exact bind_ok.mpr ⟨_, rfl, if_pos hlen⟩
  · rw [if_neg h0]
    cases hp : db.objects me.kin.up with
    | none =>
      rw [slots, hp, List.length_nil] at hnew
      omega
    | some p =>
      rw [slots_some hp] at hnew ⊢
      refine bind_ok.mpr ⟨p, by rw [find_eq, hp]; rfl, ?_⟩
      rw [if_pos hnew]
      exact bind_ok.mpr ⟨_, rfl, if_pos hlen⟩

/-- What happens to the slots of an object below one with a new parent, whose slots are for
`tail`. -/
structure Reslotted (tail : List ℕ) (d : ℤ × ℕ) (o o' : Object) : Prop where
  shape : o'.shape = o.shape
  waifPropdefs : o'.waifPropdefs = none
  kept : o'.propval.take d.2 = o.propval.take d.2
  uids : o'.propval.map (·.uid) = (o.propval.map (·.uid)).take d.2++tail

/-- The check fails only where a property of the new ancestors is defined below. -/
theorem checkPropertiesForChparent_eq {db : Db} (hf : IsForest nothing db.kin) {oid : ℤ}
    (hoid : (db.objects oid).isSome = true) (parent : ℤ) :
    ∃ b, db.checkPropertiesForChparent oid parent = .ok b ∧ (b = true ↔
      ∀ i j oi oj, db.objects i = some oi → db.objects j = some oj →
        (db.objects parent).isSome = true → Below nothing db.kin i oid →
        Below nothing db.kin parent j → ∀ p ∈ oi.propdefs, ∀ q ∈ oj.propdefs,
          p.name.str.fold ≠ q.name.str.fold) := by
  obtain ⟨chain, hc, hl⟩ := ancestors_eq hf parent
  have hdef := fun name => definedAtOrBelow_eq hf hoid name
  choose g hg hgiff using hdef
  have hin : ∀ a ∈ chain, (a.2.propdefs.allM fun p => do
      return !(← db.definedAtOrBelow p.name.str oid)) =
      Except.ok (a.2.propdefs.all fun p => !g p.name.str) := by
    intro a _
    apply allM_ok
    intro p _
    rw [hg]
    rfl
  refine ⟨chain.all fun a => a.2.propdefs.all fun p => !g p.name.str,
    bind_ok.mpr ⟨chain, hc, allM_ok hin⟩, ?_⟩
  simp only [List.all_eq_true, Bool.not_eq_true']
  constructor
  · intro hall i j oi oj hi hj hs hb hp p hpm q hqm he
    have := hall (j, oj) ((hl.mem hf).mpr ⟨hj, hs, hp⟩) q hqm
    have ht := (hgiff q.name.str).mpr ⟨i, oi, hi, hb, p, hpm, he⟩
    rw [this] at ht
    cases ht
  · intro hall a ha q hq
    obtain ⟨hj, hs, hb⟩ := (hl.mem hf).mp ha
    cases hgq : g q.name.str with
    | false => rfl
    | true =>
      obtain ⟨i, oi, hi, hbi, p, hp, he⟩ := (hgiff q.name.str).mp hgq
      exact absurd he (hall i a.1 oi a.2 hi hj hs hbi hb p hp q hq)

section Chparent
variable {db : Db} (h : db.Sound) {oid : ℤ} {o : Object} (ho : db.objects oid = some o)
  {parent : ℤ} (hnot : ¬Below nothing db.kin parent oid)
include h ho hnot

section Fix
variable {db1 : Db} (h1 : db.Adopted db1 oid parent)
include h1

omit h ho in
theorem Adopted.not_below_parent : ¬Below nothing db1.kin parent oid := by
  intro hb
  rcases h1.below hb with hb|⟨hb, -⟩
  · exact hnot hb
  · exact hnot hb

omit hnot in
theorem Adopted.not_below_old : ¬Below nothing db1.kin o.kin.up oid := by
  intro hb
  by_cases hn : o.kin.up = nothing
  · rw [hn] at hb
    rcases Relation.ReflTransGen.cases_head hb with he|⟨k, hk, -⟩
    · rw [← he, nothing_free] at ho
      cases ho
    · obtain ⟨o', ho', -⟩ := above_iff.mp hk
      rw [nothing_free] at ho'
      cases ho'
  · have ha : Above nothing db.kin oid o.kin.up := above_iff.mpr ⟨o, ho, rfl, hn⟩
    rcases h1.below hb with hb|⟨hb, -⟩
    · exact h.kin.irrefl ha hb
    · exact h.kin.irrefl ha hb

omit ho hnot in
theorem Adopted.ordered (i : ℤ) (o1 : Object) (ho1 : db1.objects i = some o1) (hi : i ≠ oid) :
    db1.uids i = o1.propdefs.map (·.uid)++db1.uids o1.kin.up := by
  obtain ⟨o', ho', -, hp, -, hu⟩ := h1.back ho1
  rw [Function.update_of_ne hi] at hu
  rw [h1.uids_eq, h1.uids_eq, hp, hu]
  exact h.order i o' ho'

omit h hnot in
theorem Adopted.visits (pos : ℕ) : ∃ ds, db1.subtree db1.fuel oid pos = .ok ds ∧
    db1.Visits oid pos ds ∧ db.Visits oid pos ds := by
  have hr : (db1.objects oid).isSome = true := by simp [h1.isSome, ho]
  obtain ⟨ds, hds, hv1⟩ := subtree_eq h1.kin pos hr
  refine ⟨ds, hds, hv1, hv1.congr hr (fun i => (h1.isSome i).symm) fun i o1 oi hne ho1 hoi => ?_⟩
  obtain ⟨o', ho', -, hp, -, hu⟩ := h1.back ho1
  obtain rfl := Option.some.inj (hoi.symm.trans ho')
  rw [Function.update_of_ne hne] at hu
  exact ⟨hu.symm, by rw [hp]⟩

section Exchange
variable {ns os cs : List ℕ} (hex : db1.Exchange parent o.kin.up ns os cs)
  {ds : List (ℤ × ℕ)} (hv : db.Visits oid o.propdefs.length ds)
include hex hv

omit hnot in
/-- The slots that go and those that stay are the ones behind the first of each object. -/
theorem Adopted.behind {d : ℤ × ℕ} (hd : d ∈ ds) {me : Object} (hme : db1.objects d.1 = some me) :
    d.2 ≤ me.propval.length ∧ (me.propval.map (·.uid)).drop d.2 = os++cs := by
  have hdrop : (db.uids oid).drop o.propdefs.length = os++cs := by
    rw [h.order oid o ho, ← hex.goes, h1.uids_eq]
    simp
  obtain ⟨hle, hdr⟩ := h.order.visits hv (propdefs_le h ho) d hd
  rw [hdrop] at hdr
  rw [← h1.uids_eq, uids_length hme] at hle
  rw [← uids_some hme, h1.uids_eq]
  exact ⟨hle, hdr⟩

omit hnot in
theorem Adopted.refill_uids {d : ℤ × ℕ} (hd : d ∈ ds) {me : Object}
    (hme : db1.objects d.1 = some me) :
    (refill os.length cs.length ((db.slots parent).take ns.length) d.2 me).propval.map (·.uid) =
      (me.propval.map (·.uid)).take d.2++db.uids parent := by
  obtain ⟨hle, hdr⟩ := h1.behind h ho hex hv hd hme
  have hnew : ((db.slots parent).take ns.length).map (·.uid) = ns := by
    rw [List.map_take, ← uids_slots, ← h1.uids_eq, hex.comes, List.take_left' rfl]
  have hinherit : ((·.uid) : Pval → ℕ) ∘ inherit me.owner = (·.uid) := rfl
  have hlast : ((me.propval.drop (d.2+os.length)).take cs.length).map (·.uid) = cs := by
    rw [List.map_take, List.map_drop, ← List.drop_drop, hdr, List.drop_left' rfl, List.take_length]
  rw [refill, List.map_append, List.map_append, List.map_map, hinherit, hnew, hlast, List.map_take,
    List.append_assoc, ← hex.comes, h1.uids_eq]

end Exchange

/-- What the walk does to the slots below an object with a new parent. -/
theorem Adopted.refills : ∃ db2 ds ns os cs, db1.fixPropertiesAfterChparent oid o.kin.up = .ok db2 ∧
    db.Visits oid o.propdefs.length ds ∧ db1.Exchange parent o.kin.up ns os cs ∧
    db1.Patch db2 ds fun d o o' =>
      o' = refill os.length cs.length ((db.slots parent).take ns.length) d.2 o := by
  have hpar := h1.not_below_parent hnot
  have hold := h1.not_below_old h ho
  obtain ⟨ns, os, cs, hex, hcommon⟩ := commonProps_eq h1.kin (h1.ordered h) hpar hold
  have hns := hex.comes
  have hos := hex.goes
  have hcn := count_above h1.kin (h1.ordered h) hpar
  have hco := count_above h1.kin (h1.ordered h) hold
  obtain ⟨l, ho1, hup⟩ := h1.each oid o ho
  rw [Function.update_self] at hup
  obtain ⟨ds, hds, hv1, hv⟩ := h1.visits ho o.propdefs.length
  have hin : ∀ d ∈ ds, (db.objects d.1).isSome = true ∧ Below nothing db.kin d.1 oid :=
    fun d hd => (hv.mem d.1).mp (List.mem_map_of_mem hd)
  have hnp : parent ∉ ds.map Prod.fst := fun hx => hnot ((hv.mem parent).mp hx).2
  have hpl : ns.length ≤ (db.slots parent).length := by
    have := congrArg List.length hns
    rw [h1.uids_eq, uids_slots, List.length_map, List.length_append] at this
    omega
  have hle : ∀ d ∈ ds, ∀ me, db1.objects d.1 = some me →
      d.2+os.length+cs.length ≤ me.propval.length := by
    intro d hd me hme
    obtain ⟨hle, hdr⟩ := h1.behind h ho hex hv hd hme
    have hl := congrArg List.length hdr
    rw [List.length_drop, List.length_append, List.length_map] at hl
    omega
  have hfold := foldlM_patch db1
    (fun db d => fixProps os.length ns.length cs.length db d.1 d.2)
    (fun d o o' => o' = refill os.length cs.length ((db.slots parent).take ns.length) d.2 o)
    hv.nodup (fun d hd => by rw [h1.isSome]; exact (hin d hd).1)
    (fun pre d post db' hd hp me hme hme' => by
      have hm : d ∈ ds := by simp [hd]
      -- the parent's slots behind its own and those between, as they are when its child is reached
      obtain ⟨hlen, hslots⟩ : d.2-me.propdefs.length+ns.length ≤ (db'.slots me.kin.up).length ∧
          (((db'.slots me.kin.up).drop (d.2-me.propdefs.length)).take ns.length).map
            (inherit me.owner) = ((db.slots parent).take ns.length).map (inherit me.owner) := by
        rcases hv1.order pre d post hd with rfl|⟨od, e, hod, he, heup, -, hoff⟩
        · obtain rfl := Option.some.inj (ho1.symm.trans hme)
          have hpre : parent ∉ pre.map Prod.fst := by
            intro hx
            rw [hd, List.map_append] at hnp
            exact hnp (List.mem_append_left _ hx)
          have hsame : db'.slots parent = db.slots parent := by
            rw [slots, hp.off parent hpre, ← slots, h1.slots_eq]
          rw [Nat.sub_self, hup, hsame, List.drop_zero]
          exact ⟨by omega, rfl⟩
        · obtain rfl := Option.some.inj (hme.symm.trans hod)
          have hde : e ∈ ds := by
            rw [hd]
            exact List.mem_append_left _ he
          have hes : (db1.objects e.1).isSome = true := by
            rw [h1.isSome]
            exact (hin e hde).1
          obtain ⟨oe, hoe⟩ := Option.isSome_iff_exists.mp hes
          obtain ⟨oe', hoe', rfl⟩ := hp.on e he oe hoe
          have hte : (oe.propval.take e.2).length = e.2 := by
            have := hle e hde oe hoe
            rw [List.length_take]
            omega
          have htn : (((db.slots parent).take ns.length).map (inherit oe.owner)).length =
              ns.length := by
            rw [List.length_map, List.length_take]
            omega
          rw [hoff, Nat.add_sub_cancel_left, heup, slots_some hoe', refill]
          refine ⟨?_, ?_⟩
          · simp only [List.length_append, hte, htn]
            omega
          · simp only [List.append_assoc]
            rw [List.drop_left' hte, List.take_left' htn, List.map_map]
            exact List.map_congr_left fun pv _ => inherit_inherit _ _ pv
      exact fixProps_eq hme' hlen hslots (hle d hm me hme))
  obtain ⟨db2, hdb2, hp⟩ := hfold
  refine ⟨db2, ds, ns, os, cs, ?_, hv, hex, hp⟩
  rw [fixPropertiesAfterChparent]
  refine bind_ok.mpr ⟨_, object_ok ho1, ?_⟩
  rw [hup]
  refine bind_ok.mpr ⟨_, hcommon, bind_ok.mpr ⟨_, hco, bind_ok.mpr ⟨_, hcn, bind_ok.mpr ⟨ds, hds, ?_⟩⟩⟩⟩
  rw [hos, hns, List.length_append, List.length_append, Nat.add_sub_cancel, Nat.add_sub_cancel]
  exact hdb2

omit hnot in
/-- The slots of the old ancestors are replaced below an object with a new parent. -/
theorem Adopted.reslots {db2 : Db} {ds : List (ℤ × ℕ)} {ns os cs : List ℕ}
    (hv : db.Visits oid o.propdefs.length ds) (hex : db1.Exchange parent o.kin.up ns os cs)
    (hp : db1.Patch db2 ds fun d o o' =>
      o' = refill os.length cs.length ((db.slots parent).take ns.length) d.2 o) :
    db1.Patch db2 ds (Reslotted (db.uids parent)) := by
  refine hp.imp ?_
  rintro d hd me _ hme rfl
  obtain ⟨hle, -⟩ := h1.behind h ho hex hv hd hme
  refine ⟨rfl, rfl, ?_, h1.refill_uids h ho hex hv hd hme⟩
  have hte : (me.propval.take d.2).length = d.2 := by
    rw [List.length_take]
    omega
  simp only [refill, List.append_assoc]
  rw [List.take_left' hte]

theorem Adopted.sound (hn : db1.Named) {db2 : Db} {ds : List (ℤ × ℕ)}
    (hv : db.Visits oid o.propdefs.length ds) (hp : db1.Patch db2 ds (Reslotted (db.uids parent))) :
    db2.Sound := by
  have hlike : db1.Like db2 := hp.like fun _ _ _ hq => hq.shape
  have hsome : ∀ i, (db2.objects i).isSome = (db.objects i).isSome := fun i =>
    (hp.isSome i).trans (h1.isSome i)
  have hoff : ∀ i, i ∉ ds.map Prod.fst → db2.uids i = db.uids i := by
    intro i hi
    rw [← h1.uids_eq i, uids, uids, hp.off i hi]
  have hon : ∀ d ∈ ds, db2.uids d.1 = (db.uids d.1).take d.2++db.uids parent := by
    intro d hd
    have hds : (db1.objects d.1).isSome = true := by
      rw [h1.isSome]
      exact ((hv.mem d.1).mp (List.mem_map_of_mem hd)).1
    obtain ⟨o1, ho1⟩ := Option.isSome_iff_exists.mp hds
    obtain ⟨o2, ho2, hq⟩ := hp.on d hd o1 ho1
    rw [uids_some ho2, hq.uids, ← h1.uids_eq d.1, uids_some ho1]
  -- an object of the new database, as it was before the slots changed and at first
  have hback : ∀ {i o2}, db2.objects i = some o2 → ∃ o1 oi, db1.objects i = some o1 ∧
      db.objects i = some oi ∧ o2.kin.up = Function.update (fun _ => oi.kin.up) oid parent i ∧
      o2.propdefs = oi.propdefs ∧ o1.propdefs = oi.propdefs ∧ o1.propval = oi.propval := by
    intro i o2 ho2
    obtain ⟨o1, ho1, hk, -, hpd⟩ := hlike.symm.some ho2
    obtain ⟨oi, hoi, -, hpd1, hpv1, hu⟩ := h1.back ho1
    exact ⟨o1, oi, ho1, hoi, hk ▸ hu, hpd.symm.trans hpd1, hpd1, hpv1⟩
  refine ⟨?_, ?_, hn.like hlike (le_of_eq hp.uid.symm), ?_, fun i o2 ho2 pv hpv => ?_⟩
  · rw [hlike.kin_eq]
    exact h1.kin
  · rw [hlike.place_eq, h1.place_eq]
    exact h.place
  · refine h.order.retail hv hsome (fun i oi o2 hne hoi ho2 => ?_) hoff hon fun o2 ho2 => ?_
    · obtain ⟨o1, oi', -, hoi', hup, hpd, -⟩ := hback ho2
      obtain rfl := Option.some.inj (hoi.symm.trans hoi')
      rw [Function.update_of_ne hne] at hup
      exact ⟨hup, hpd⟩
    · obtain ⟨o1, oi, -, hoi, hup, hpd, -⟩ := hback ho2
      obtain rfl := Option.some.inj (ho.symm.trans hoi)
      rw [Function.update_self] at hup
      have hnp : parent ∉ ds.map Prod.fst := fun hx => hnot ((hv.mem parent).mp hx).2
      obtain ⟨rest, hds, -⟩ := hv.head (by simp [ho])
      rw [hon (oid, o.propdefs.length) (by simp [hds]), hup, hpd, hoff parent hnp,
        h.order oid o ho, List.take_left' (by simp)]
  · obtain ⟨o1, oi, ho1, hoi, -, hpd2, hpd1, hpv1⟩ := hback ho2
    refine h.own i oi hoi pv ?_
    by_cases hi : i ∈ ds.map Prod.fst
    · obtain ⟨d, hd, rfl⟩ := List.mem_map.mp hi
      obtain ⟨o3, ho3, hq⟩ := hp.on d hd o1 ho1
      obtain rfl := Option.some.inj (ho2.symm.trans ho3)
      have hle : oi.propdefs.length ≤ d.2 := by
        rcases hv.cases h.kin hd with rfl|⟨-, od, e, hod, -, -, hoff'⟩
        · rw [Option.some.inj (ho.symm.trans hoi)]
        · rw [Option.some.inj (hod.symm.trans hoi)] at hoff'
          omega
      have hk := congrArg (List.take oi.propdefs.length) hq.kept
      rw [List.take_take, List.take_take, Nat.min_eq_left hle, hpv1] at hk
      rwa [hpd2, hk] at hpv
    · rw [hp.off i hi] at ho2
      obtain rfl := Option.some.inj (ho1.symm.trans ho2)
      rwa [hpd1, hpv1] at hpv

theorem Adopted.tends (hn : db1.Named) {db2 : Db} {ds : List (ℤ × ℕ)}
    (hv : db.Visits oid o.propdefs.length ds) (hp : db1.Patch db2 ds (Reslotted (db.uids parent))) :
    db.Tends db2 := by
  refine hp.tends h.kin (h1.sound h ho hnot hn hv hp) h1.heap (fun i hi => ?_) (by simp [ho]) hv
    fun _ _ _ hq => ⟨hq.shape, hq.waifPropdefs⟩
  cases hoi : db.objects i with
  | none =>
    have hs := h1.isSome i
    rw [hoi, Option.isSome_none, Option.isSome_eq_false_iff, Option.isNone_iff_eq_none] at hs
    rw [hs]
  | some oi =>
    obtain ⟨l, hl, hup⟩ := h1.each i oi hoi
    rw [Function.update_of_ne hi] at hup
    rw [hl, Option.map_some, Option.map_some, Object.defs, Object.defs, hup]

end Fix

/-- What the new database is where the parent was changed. -/
def Chparented (db db' : Db) (oid parent : ℤ) (o : Object) : Prop :=
  ∃ db1 ds, db.Adopted db1 oid parent ∧ db.Visits oid o.propdefs.length ds ∧
    db1.Patch db' ds (Reslotted (db.uids parent))

/-- The same with the slots that come, go and stay. -/
def Refilled (db db' : Db) (oid parent : ℤ) (o : Object) : Prop :=
  ∃ db1 ds ns os cs, db.Adopted db1 oid parent ∧ db.Visits oid o.propdefs.length ds ∧
    db1.Exchange parent o.kin.up ns os cs ∧ db1.Patch db' ds fun d o o' =>
      o' = refill os.length cs.length ((db.slots parent).take ns.length) d.2 o

omit hnot in
theorem Refilled.chparented {db' : Db} (hr : db.Refilled db' oid parent o) :
    db.Chparented db' oid parent o := by
  obtain ⟨db1, ds, ns, os, cs, h1, hv, hex, hp⟩ := hr
  exact ⟨db1, ds, h1, hv, h1.reslots h ho hv hex hp⟩

theorem changeParent_refilled (hdest : parent = nothing ∨ (db.objects parent).isSome = true) :
    ∃ r, db.changeParent oid parent = .ok r ∧ db.Tends r.2 ∧
      (r.1 = true ∧ db.Refilled r.2 oid parent o ∨ r = (false, db) ∧
        ∃ i j oi oj, db.objects i = some oi ∧ db.objects j = some oj ∧
          Below nothing db.kin i oid ∧ Below nothing db.kin parent j ∧
          ∃ p ∈ oi.propdefs, ∃ q ∈ oj.propdefs, p.name.str.fold = q.name.str.fold) := by
  have hoid : (db.objects oid).isSome = true := by simp [ho]
  obtain ⟨b, hb, hiff⟩ := checkPropertiesForChparent_eq h.kin hoid parent
  cases b with
  | false =>
    refine ⟨(false, db), bind_ok.mpr ⟨false, hb, rfl⟩, .refl h, .inr ⟨rfl, ?_⟩⟩
    by_contra hno
    refine absurd (hiff.mpr fun i j oi oj hi hj _ hbi hpj p hp q hq he => ?_) (by simp)
    exact hno ⟨i, j, oi, oj, hi, hj, hbi, hpj, p, hp, q, hq, he⟩
  | true =>
    obtain ⟨hk, hr, hf, hsome, hup⟩ := h.kin.reparent ((kin_isSome oid).trans hoid)
      (by rw [kin_isSome]; exact hdest) hnot db.kin_small
    have h1 := setKin_adopted (if o.kin.first = nothing ∧ o.verbdefs = [] then db.vcTable
      else db.affectedCallableVerbLookup.vcTable) hf (fun i => (hsome i).trans (kin_isSome i)) hup
    obtain ⟨db2, ds, ns, os, cs, hfix, hv, hex, hp⟩ := h1.refills h ho hnot
    have hn := by
      refine h1.named h.named fun i j oi oj hi hj hbi hpj => ?_
      refine hiff.mp rfl i j oi oj hi hj ?_ hbi hpj
      rcases hdest with rfl|hs
      · rcases Relation.ReflTransGen.cases_head hpj with rfl|⟨k, hk', -⟩
        · rw [nothing_free] at hj
          cases hj
        · obtain ⟨o', ho', -⟩ := above_iff.mp hk'
          rw [nothing_free] at ho'
          cases ho'
      · exact hs
    refine ⟨(true, db2), ?_, h1.tends h ho hnot hn hv (h1.reslots h ho hv hex hp),
      .inl ⟨rfl, _, ds, ns, os, cs, h1, hv, hex, hp⟩⟩
    refine bind_ok.mpr ⟨true, hb, bind_ok.mpr ⟨o, object_ok ho, bind_ok.mpr ⟨hk, ?_, ?_⟩⟩⟩
    · exact congrArg deref hr
    · exact bind_ok.mpr ⟨db2, hfix, rfl⟩

theorem changeParent_eq (hdest : parent = nothing ∨ (db.objects parent).isSome = true) :
    ∃ r, db.changeParent oid parent = .ok r ∧ db.Tends r.2 ∧
      (r.1 = true ∧ db.Chparented r.2 oid parent o ∨ r = (false, db) ∧
        ∃ i j oi oj, db.objects i = some oi ∧ db.objects j = some oj ∧
          Below nothing db.kin i oid ∧ Below nothing db.kin parent j ∧
          ∃ p ∈ oi.propdefs, ∃ q ∈ oj.propdefs, p.name.str.fold = q.name.str.fold) := by
  obtain ⟨r, hr, ht, hcases⟩ := changeParent_refilled h ho hnot hdest
  refine ⟨r, hr, ht, ?_⟩
  rcases hcases with ⟨hb, hx⟩|hx
  · exact .inl ⟨hb, hx.chparented h ho⟩
  · exact .inr hx

end Chparent

/-- Every call of `chparent` ends and leaves a sound database. -/
theorem chparent_tends {db : Db} (h : db.Sound) (what parent progr : ℤ) :
    ∃ r, db.chparent what parent progr = .ok r ∧ db.Tends r.2 := by
  rw [chparent, find_eq]
  cases ho : db.objects what with
  | none => exact ⟨_, rfl, .refl h⟩
  | some o =>
    dsimp only
    by_cases hv : (!db.valid parent && parent ≠ nothing) = true
    · rw [if_pos hv]
      exact ⟨_, rfl, .refl h⟩
    rw [if_neg hv]
    generalize (!db.controls progr o || _) = refused
    cases refused with
    | true => exact ⟨_, rfl, .refl h⟩
    | false =>
      have hdest : parent = nothing ∨ (db.objects parent).isSome = true := by
        rw [valid, find_eq] at hv
        by_cases hn : parent = nothing
        · exact .inl hn
        · exact .inr (by simpa [hn, Option.isSome_iff_ne_none] using hv)
      have hne : what ≠ nothing := by
        rintro rfl
        rw [nothing_free] at ho
        cases ho
      obtain ⟨b, hb, hbelow⟩ := h.kin.reaches db.kin_small (i := parent)
        (by rw [kin_isSome]; exact hdest) hne
      cases b with
      | true => exact ⟨(.fails .recmove, db), bind_ok.mpr ⟨true, by rw [hb]; rfl, rfl⟩, .refl h⟩
      | false =>
        have hnot : ¬Below nothing db.kin parent what := fun hx => by simpa using hbelow.mpr hx
        obtain ⟨r, hr, hs, -⟩ := changeParent_eq h ho hnot hdest
        obtain ⟨b, db'⟩ := r
        cases b with
        | true =>
          exact ⟨(.done zero, db'), bind_ok.mpr ⟨false, by rw [hb]; rfl, bind_ok.mpr ⟨_, hr, rfl⟩⟩, hs⟩
        | false =>
          exact ⟨(.fails .invarg, db'), bind_ok.mpr ⟨false, by rw [hb]; rfl, bind_ok.mpr ⟨_, hr, rfl⟩⟩, hs⟩

end Db
end LambdaMoo.Database
