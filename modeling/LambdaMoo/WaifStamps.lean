import LambdaMoo.WaifRestore

/-!
# The number of a waif in its bitmap

A forked checkpoint keeps the number of a waif that it has written in the
first word of the bitmap of the waif, which it looks for in the table, whatever
stands there. The file is the one that is written when the table alone says
which waifs are in it.
-/

set_option autoImplicit false

namespace LambdaMoo.WaifFile
open LambdaMoo.DbIo LambdaMoo.Database LambdaMoo.Database.World

/-- The bitmap with an `int` for its first word. -/
def stampMap (map : WaifMap) (n : ℕ) : WaifMap where
  word j := if j.val = 0 then (BitVec.ofNat 32 n).signExtend 64 else map.word j
  signed j := by
    by_cases h : j.val = 0
    · simp only [h, if_true]
      rw [WaifMap.setWidth_signExtend]
    · simp only [h, if_false]
      exact map.signed j

def stampWaif (w : Waif) (n : ℕ) : Waif := { w with map := stampMap w.map n }

/-- The number that a waif keeps, or what its bitmap says in place of one. -/
def saveIndex (w : Waif) : ℕ := (w.map.at' 0).toNat

theorem saveIndex_stamp (w : Waif) {n : ℕ} (hn : n < 2^31) : saveIndex (stampWaif w n) = n := by
  have hw : (stampMap w.map n).at' 0 = (BitVec.ofNat 32 n).signExtend 64 := rfl
  rw [saveIndex, stampWaif, hw]
  have hmsb : (BitVec.ofNat 32 n).msb = false := by
    rw [BitVec.msb_eq_decide, BitVec.toNat_ofNat, Nat.mod_eq_of_lt (by omega)]
    simpa using hn
  rw [BitVec.signExtend_eq_setWidth_of_msb_false hmsb, BitVec.toNat_setWidth, BitVec.toNat_ofNat]
  omega

/-- `write_waif` where the number takes the place of the first word of the bitmap. -/
def storeWaif (write : ℕ → Var → Saving → Result (List Byte × Saving)) (w : WaifRef)
    (s : Saving) : Result (List Byte × Saving) := do
  let index := saveIndex (← s.world.waif w)
  if s.saved[index]? = some w then return (printf (format "r %d\n") [(index:ℤ)]++terminator, s)
  else
    let world ← s.world.updateWaifPropdefs w
    let waif ← world.waif w
    let index := s.saved.length
    let len := waifLength world.db waif
    let r ← writeVals write waif.map len 0 waif.propvals
      ⟨world.setWaif w (stampWaif waif index), s.saved++[w]⟩
    return (printf (format "c %d\n") [(index:ℤ)]
      ++(dbioWriteNum (BitVec.ofInt 64 waif.cls)++(dbioWriteNum (BitVec.ofInt 64 waif.owner)
      ++(dbioWriteNum (BitVec.ofNat 64 len)++(r.1++(dbioWriteNum (-1)++terminator))))), r.2)

def storeWaifs (o : Others) :
    ℕ → (List ℕ → BitVec 32) → WaifRef → Saving → Result (List Byte × Saving)
  | 0, _, _, _ => .error .outOfFuel
  | n+1, upper, w, s =>
    storeWaif (fun i => writeVar o (storeWaifs o n) (fun p => upper (i::p))) w s

def storeVars (o : Others) (upper : List ℕ → BitVec 32) (vs : List Var) (s : Saving) :
    Result (List Byte × Saving) :=
  writeVars o (storeWaifs o (s.world.next+1)) upper vs s

/-- What is in memory when each waif of the table keeps its number. -/
def stampedWaif (s : Saving) (r : WaifRef) : Option Waif :=
  if r ∈ s.saved then (s.world.waifs r).map (stampWaif · (s.saved.idxOf r)) else s.world.waifs r

theorem stampedWaif_isSome (s : Saving) (r : WaifRef) :
    (stampedWaif s r).isSome = (s.world.waifs r).isSome := by
  rw [stampedWaif]
  split
  · exact Option.isSome_map
  · rfl

theorem stampedWaif_bounded (s : Saving) (r : WaifRef) (h : (stampedWaif s r).isSome = true) :
    r.ptr < s.world.next :=
  s.world.bounded r ((stampedWaif_isSome s r).symm.trans h)

def stamped (s : Saving) : Saving :=
  ⟨⟨s.world.db, stampedWaif s, s.world.next, stampedWaif_bounded s⟩, s.saved⟩

/-- There are fewer waifs than an `int` counts. -/
def Few (world : World) : Prop :=
  ∀ l : List WaifRef, l.Nodup → (∀ r ∈ l, (world.waifs r).isSome = true) → l.length < 2^31

structure Tabled (s : Saving) : Prop where
  nodup : s.saved.Nodup
  live : ∀ r ∈ s.saved, (s.world.waifs r).isSome = true
  few : Few s.world

theorem world_ext {s t : World} (hd : s.db = t.db) (hw : ∀ r, s.waifs r = t.waifs r)
    (hn : s.next = t.next) : s = t := by
  obtain ⟨db, waifs, next, hb⟩ := s
  obtain ⟨db', waifs', next', hb'⟩ := t
  obtain rfl : db = db' := hd
  obtain rfl : waifs = waifs' := funext hw
  obtain rfl : next = next' := hn
  rfl

section Enter
variable {s : Saving} (hs : Tabled s) {w : WaifRef} (hw : w ∉ s.saved)
include hs hw

theorem Tabled.enter {world : World} (hu : s.world.updateWaifPropdefs w = .ok world) :
    Tabled ⟨world, s.saved++[w]⟩ := by
  obtain ⟨waif, db', waif', hwaif, -, rfl⟩ := updateWaifPropdefs_ok.mp hu
  have hsome : ∀ r, (({ s.world with db := db' }.setWaif w waif').waifs r).isSome
      = (s.world.waifs r).isSome := setWaif_isSome { s.world with db := db' } w waif'
  refine ⟨hs.nodup.append (List.nodup_singleton w) (by simpa using hw), fun r hr => ?_,
    fun l hl hlive => hs.few l hl fun r hr => (hsome r).symm.trans (hlive r hr)⟩
  rw [hsome]
  rcases List.mem_append.mp hr with hr|hr
  · exact hs.live r hr
  · rw [List.mem_singleton.mp hr, hwaif]
    rfl

omit hs in
theorem stamped_new : (stamped s).world.waifs w = s.world.waifs w := if_neg hw

omit hs in
/-- A waif that enters the table gets its number. -/
theorem stamped_enter (db' : Db) (waif : Waif) (hsome : (s.world.waifs w).isSome = true) :
    ((({ (stamped s).world with db := db' }).setWaif w waif).setWaif w
        (stampWaif waif s.saved.length))
      = (stamped ⟨({ s.world with db := db' }).setWaif w waif, s.saved++[w]⟩).world := by
  obtain ⟨old, hold⟩ := Option.isSome_iff_exists.mp hsome
  apply world_ext
  · rfl
  · intro r
    by_cases hr : r = w
    · subst hr
      have hnew : (stamped s).world.waifs r = some old := (stamped_new hw).trans hold
      have hidx : (s.saved++[r]).idxOf r = s.saved.length := by
        rw [List.idxOf_append_of_notMem hw]
        simp
      simp [stamped, stampedWaif, setWaif, hold, hw, hidx]
    · have hidx : r ∈ s.saved → (s.saved++[w]).idxOf r = s.saved.idxOf r :=
        fun h => List.idxOf_append_of_mem h
      by_cases hmem : r ∈ s.saved
      · simp [stamped, stampedWaif, setWaif, hr, hmem, hidx hmem]
      · simp [stamped, stampedWaif, setWaif, hr, hmem]
  · rfl

end Enter

/-- A routine writes the same where the waifs of the table keep their numbers, and leaves them with
their numbers. -/
def Stamps (f g : Saving → Result (List Byte × Saving)) : Prop :=
  ∀ s, Tabled s → g (stamped s) = (f s).map (fun r => (r.1, stamped r.2)) ∧
    ∀ bs s', f s = .ok (bs, s') → Tabled s' ∧ s'.world.next = s.world.next

namespace Stamps
variable {f g f' g' : Saving → Result (List Byte × Saving)}

theorem pure (bs : List Byte) : Stamps (fun s => .ok (bs, s)) fun s => .ok (bs, s) := by
  intro s hs
  refine ⟨rfl, fun bs' s' h => ?_⟩
  obtain ⟨-, rfl⟩ : bs = bs' ∧ s = s' := by simpa using h
  exact ⟨hs, rfl⟩

theorem fault (e : Fault) : Stamps (fun _ => .error e) fun _ => .error e := by
  intro s _
  refine ⟨rfl, fun bs s' h => ?_⟩
  cases h

theorem map (h : Stamps f g) (k : List Byte → List Byte) :
    Stamps (fun s => do let r ← f s; return (k r.1, r.2))
      fun s => do let r ← g s; return (k r.1, r.2) := by
  intro s hs
  obtain ⟨he, hok⟩ := h s hs
  cases hf : f s with
  | error e => simp [hf, he, bind, Except.bind, Except.map]
  | ok r =>
    rw [hf] at he
    refine ⟨by simp [he, hf, bind, Except.bind, Except.map, Pure.pure, Except.pure],
      fun bs s' h => ?_⟩
    obtain ⟨-, rfl⟩ : k r.1 = bs ∧ r.2 = s' := by
      simpa [hf, bind, Except.bind, Pure.pure, Except.pure] using h
    exact hok r.1 r.2 hf

theorem seq (h : Stamps f g) (h' : Stamps f' g') (k : List Byte → List Byte → List Byte) :
    Stamps (fun s => do let r ← f s; let t ← f' r.2; return (k r.1 t.1, t.2))
      fun s => do let r ← g s; let t ← g' r.2; return (k r.1 t.1, t.2) := by
  intro s hs
  obtain ⟨he, hok⟩ := h s hs
  cases hf : f s with
  | error e => simp [hf, he, bind, Except.bind, Except.map]
  | ok r =>
    obtain ⟨ht, hn⟩ := hok r.1 r.2 hf
    obtain ⟨he', hok'⟩ := h' r.2 ht
    rw [hf] at he
    cases hf' : f' r.2 with
    | error e =>
      rw [hf'] at he'
      simp [hf, hf', he, he', bind, Except.bind, Except.map]
    | ok t =>
      rw [hf'] at he'
      refine ⟨by simp [he, he', hf, hf', bind, Except.bind, Except.map, Pure.pure, Except.pure],
        fun bs s' h => ?_⟩
      obtain ⟨-, rfl⟩ : k r.1 t.1 = bs ∧ t.2 = s' := by
        simpa [hf, hf', bind, Except.bind, Pure.pure, Except.pure] using h
      obtain ⟨ht', hn'⟩ := hok' t.1 t.2 hf'
      exact ⟨ht', hn'.trans hn⟩

end Stamps

section Waifs
variable {write write' : ℕ → Var → Saving → Result (List Byte × Saving)}
  (hw : ∀ i v, Stamps (write i v) (write' i v))
include hw

theorem vals_stamps (map : WaifMap) (n i : ℕ) (vals : List Var) :
    Stamps (writeVals write map n i vals) (writeVals write' map n i vals) := by
  induction n generalizing i vals with
  | zero => exact .pure []
  | succ n ih =>
    intro s hs
    by_cases hi : map.stored i = true
    · cases vals with
      | nil =>
        simp only [writeVals, hi, if_true]
        exact Stamps.fault _ s hs
      | cons v vals =>
        by_cases hc : i < nMappableProps ∨ v.type ≠ .clear
        · simp only [writeVals, hi, if_true, if_pos hc]
          exact (hw i v).seq (ih (i+1) vals) (fun a b => dbioWriteNum (BitVec.ofNat 64 i)++a++b) s hs
        · simp only [writeVals, hi, if_true, if_neg hc]
          exact ih (i+1) vals s hs
    · have hskip : ∀ write : ℕ → Var → Saving → Result (List Byte × Saving),
          writeVals write map (n+1) i vals = writeVals write map n (i+1) vals := by
        intro write
        funext s
        conv_lhs => unfold writeVals
        rw [if_neg hi]
      rw [hskip, hskip]
      exact ih (i+1) vals s hs

theorem waif_stamps (w : WaifRef) : Stamps (writeWaif write w) (storeWaif write' w) := by
  intro s hs
  by_cases hmem : w ∈ s.saved
  · obtain ⟨waif, hwaif⟩ := Option.isSome_iff_exists.mp (hs.live w hmem)
    have hlt : s.saved.idxOf w < s.saved.length := List.idxOf_lt_length_of_mem hmem
    have hstamped : (stamped s).world.waifs w = some (stampWaif waif (s.saved.idxOf w)) := by
      change stampedWaif s w = _
      rw [stampedWaif, if_pos hmem, hwaif]
      rfl
    have hindex := saveIndex_stamp waif (lt_trans hlt (hs.few s.saved hs.nodup hs.live))
    have hfound : (stamped s).saved[s.saved.idxOf w]? = some w := List.getElem?_idxOf hmem
    rw [writeWaif, if_pos hmem, storeWaif, waif_ok.mpr hstamped]
    refine ⟨?_, fun bs s' h => ?_⟩
    · simp only [bind, Except.bind, hindex, hfound, if_true]
      rfl
    · obtain ⟨-, rfl⟩ : _ ∧ s = s' := by simpa using h
      exact ⟨hs, rfl⟩
  · have hnot : ∀ k, (stamped s).saved[k]? ≠ some w := fun k hk => hmem (List.mem_of_getElem? hk)
    have hnew := stamped_new (s := s) hmem
    rw [writeWaif, if_neg hmem]
    cases hwaif : s.world.waifs w with
    | none =>
      have hmissing : s.world.updateWaifPropdefs w = .error (.undefined "null pointer") := by
        rw [updateWaifPropdefs, waif, hwaif]
        rfl
      rw [hmissing, storeWaif, waif, hnew, hwaif]
      refine ⟨rfl, fun bs s' h => ?_⟩
      cases h
    | some old =>
      rw [hwaif] at hnew
      rw [storeWaif, waif_ok.mpr hnew]
      simp only [bind, Except.bind, if_neg (hnot _)]
      cases hup : updateWaif s.world.db old with
      | error e =>
        have hfails : ∀ t : World, t.db = s.world.db → t.waifs w = some old →
            t.updateWaifPropdefs w = .error e := by
          intro t hd ht
          rw [updateWaifPropdefs, waif_ok.mpr ht]
          simp only [bind, Except.bind, hd, hup]
        rw [hfails s.world rfl hwaif, hfails (stamped s).world rfl hnew]
        refine ⟨rfl, fun bs s' h => ?_⟩
        cases h
      | ok p =>
        have hu := updateWaifPropdefs_ok.mpr ⟨old, p.1, p.2, hwaif, hup, rfl⟩
        have hu' : (stamped s).world.updateWaifPropdefs w = _ :=
          updateWaifPropdefs_ok.mpr ⟨old, p.1, p.2, hnew, hup, rfl⟩
        have hself := setWaif_self (s := { s.world with db := p.1 }) hwaif p.2
        have hself' := setWaif_self (s := { (stamped s).world with db := p.1 }) hnew p.2
        have hentered := stamped_enter hmem p.1 p.2 (by rw [hwaif]; rfl)
        have hmap := (vals_stamps hw p.2.map (waifLength p.1 p.2) 0 p.2.propvals).map
          (fun bytes => printf (format "c %d\n") [(s.saved.length:ℤ)]
            ++(dbioWriteNum (BitVec.ofInt 64 p.2.cls)++(dbioWriteNum (BitVec.ofInt 64 p.2.owner)
            ++(dbioWriteNum (BitVec.ofNat 64 (waifLength p.1 p.2))
            ++(bytes++(dbioWriteNum (-1)++terminator)))))) _ (hs.enter hmem hu)
        have hst := congrArg (Saving.mk · (s.saved++[w])) hentered
        rw [hu, hu']
        simp only [waif_ok.mpr hself, waif_ok.mpr hself']
        rw [show stamped _ = _ from hst.symm] at hmap
        exact hmap

end Waifs
section Values
variable {o : Others}
  {save store : (List ℕ → BitVec 32) → WaifRef → Saving → Result (List Byte × Saving)}

mutual
theorem var_stamps (hw : ∀ upper w, Stamps (save upper w) (store upper w)) :
    ∀ v upper, Stamps (writeVar o save upper v) (writeVar o store upper v)
  | .list vs, upper => by
    have h := (vars_stamp hw vs upper).map fun bs =>
      dbioWriteType .list++(dbioWriteNum (BitVec.ofNat 64 vs.length)++bs)
    intro s hs
    simp only [writeVar]
    exact h s hs
  | .waif w, upper => by
    have h := (hw upper w).map (dbioWriteType .waif++·)
    intro s hs
    simp only [writeVar]
    exact h s hs
  | .int _, _ | .obj _, _ | .str _, _ | .err _, _ | .float _, _ | .clear, _ | .none, _ | .catch _, _
  | .finally _, _ => .pure _
theorem vars_stamp (hw : ∀ upper w, Stamps (save upper w) (store upper w)) :
    ∀ vs upper, Stamps (writeVars o save upper vs) (writeVars o store upper vs)
  | [], _ => .pure []
  | v::vs, upper => by
    have h := (var_stamps hw v fun p => upper (vs.length::p)).seq (vars_stamp hw vs upper) (·++·)
    intro s hs
    simp only [writeVars]
    exact h s hs
end

end Values

theorem storeWaifs_stamps (o : Others) (n : ℕ) (upper : List ℕ → BitVec 32) (w : WaifRef) :
    Stamps (saveWaif o n upper w) (storeWaifs o n upper w) := by
  induction n generalizing upper w with
  | zero => exact .fault _
  | succ n ih => exact waif_stamps (fun i v => var_stamps (fun upper w => ih upper w) v _) w

/-- The numbers that a save leaves in the bitmaps are those of the table. -/
theorem stamped_index {s : Saving} (hs : Tabled s) {k : ℕ} {r : WaifRef}
    (hk : s.saved[k]? = some r) : ∃ w, s.world.waifs r = some w ∧
      (stamped s).world.waifs r = some (stampWaif w k) ∧ saveIndex (stampWaif w k) = k := by
  have hmem := List.mem_of_getElem? hk
  obtain ⟨hlt, he⟩ := List.getElem?_eq_some_iff.mp hk
  obtain ⟨w, hw⟩ := Option.isSome_iff_exists.mp (hs.live r hmem)
  have hidx : s.saved.idxOf r = k := he ▸ hs.nodup.idxOf_getElem k hlt
  refine ⟨w, hw, ?_, saveIndex_stamp w (lt_trans hlt (hs.few s.saved hs.nodup hs.live))⟩
  change stampedWaif s r = _
  rw [stampedWaif, if_pos hmem, hw, hidx]
  rfl

/-- Where the number of a waif takes the place of the first word of its bitmap, the same is written
as where the table is searched, whatever the words of the others are, with the same faults; in memory
each waif of the table has its number there, and all else is as it is without. -/
theorem stamped_save (o : Others) (upper : List ℕ → BitVec 32) (vs : List Var) {s : Saving}
    (hs : Tabled s) : storeVars o upper vs (stamped s)
      = (saveVars o upper vs s).map (fun r => (r.1, stamped r.2)) ∧
    ∀ bs s', saveVars o upper vs s = .ok (bs, s') → ∀ k r, s'.saved[k]? = some r →
      ∃ w, s'.world.waifs r = some w ∧ (stamped s').world.waifs r = some (stampWaif w k) ∧
        saveIndex (stampWaif w k) = k := by
  obtain ⟨hsame, hok⟩ := vars_stamp (storeWaifs_stamps o (s.world.next+1)) vs upper s hs
  exact ⟨hsame, fun bs s' h k r hk => stamped_index (hok bs s' h).1 hk⟩

theorem sharedSaving_tabled : Tabled sharedSaving := by
  refine ⟨List.nodup_nil, fun r hr => (List.not_mem_nil hr).elim, fun l hl hlive => ?_⟩
  have hsub : l ⊆ [⟨7⟩, ⟨9⟩] := by
    intro r hr
    have hlive := hlive r hr
    have hptr : r.ptr = 7 ∨ r.ptr = 9 := by
      by_contra hne
      rw [not_or] at hne
      change (twoWaifs r).isSome = true at hlive
      rw [twoWaifs, if_neg hne.1, if_neg hne.2] at hlive
      cases hlive
    obtain ⟨ptr⟩ := r
    rcases hptr with rfl|rfl
    · simp
    · simp
  have := (hl.subperm hsub).length_le
  rw [List.length_cons, List.length_singleton] at this
  omega

theorem stamped_save_shared : ∃ bs s', saveVars codeFloats (fun _ => 0) sharedValues sharedSaving
      = .ok (bs, s') ∧
    storeVars codeFloats (fun _ => 0) sharedValues (stamped sharedSaving) = .ok (bs, stamped s') ∧
    ∃ w, s'.world.waifs ⟨9⟩ = some w ∧ saveIndex (stampWaif w 1) = 1 := by
  obtain ⟨bs, s', h, hsaved⟩ := sharedSaving_saved
  obtain ⟨hsame, hindex⟩ := stamped_save codeFloats (fun _ => 0) sharedValues sharedSaving_tabled
  rw [h] at hsame
  obtain ⟨w, hw, -, hk⟩ := hindex bs s' h 1 ⟨9⟩ (by rw [hsaved]; rfl)
  exact ⟨bs, s', h, hsame, w, hw, hk⟩

end LambdaMoo.WaifFile
