import LambdaMoo.Codec
import LambdaMoo.Database

/-!
# Matching and substitution

The regular-expression library reports byte offsets. `match_pattern` makes
closed ranges counted from one of them, `do_match` positions of characters, by
counting the characters behind, and `substitute` goes back to bytes by skipping
characters from the start. What the library does is a parameter.
-/

set_option autoImplicit false

namespace LambdaMoo.Patterns
open LambdaMoo.Execute LambdaMoo.Parse LambdaMoo.Utf

/-- What a callout finds in its block. -/
structure CalloutBlock where
  startMatch : ℤ
  currentPosition : ℤ
  offsetVector : ℕ → ℤ
  captureTop : ℕ

/-- What `pcre_exec` does: the callouts it makes, its result and the offsets it leaves. -/
structure Exec where
  callouts : List CalloutBlock
  rc : ℤ
  ovec : ℕ → ℤ

structure RmatchData where
  ovec : ℕ → ℤ
  valid : ℕ

structure MatchIndices where
  start : ℤ
  stop : ℤ
  deriving DecidableEq, Repr

inductive MatchResult where
  | succeeded (indices : ℕ → MatchIndices)
  | failed
  | aborted

def PCRE_ERROR_NOMATCH : ℤ := -1

/-- The offsets of a block: the first two are those of the whole match so far. -/
def CalloutBlock.ovec (block : CalloutBlock) (k : ℕ) : ℤ :=
  if k = 0 then block.startMatch
  else if k = 1 then block.currentPosition
  else block.offsetVector k

def rmatchCallout (rmatch : RmatchData) (block : CalloutBlock) : Result RmatchData :=
  if rmatch.valid = 0 ∨ block.currentPosition > rmatch.ovec 1 ∨
      (block.currentPosition = rmatch.ovec 1 ∧ block.startMatch < rmatch.ovec 0) then
    if block.captureTop = 0 ∨ 10 < block.captureTop then .error (.undefined "copy of the offsets")
    else .ok ⟨fun k => if k < 2*block.captureTop then block.ovec k else rmatch.ovec k, block.captureTop⟩
  else .ok rmatch

/-- The number of pairs that are used. -/
def captured (rc : ℤ) : ℤ := if rc = 0 ∨ rc > 10 then 10 else rc

def indicesOf (rc : ℤ) (ov : ℕ → ℤ) (i : ℕ) : MatchIndices :=
  if i < captured rc then ⟨1+ov (2*i), ov (2*i+1)⟩ else ⟨0, -1⟩

/-- What the callouts of a reverse match have stored. -/
def rmatchOf (e : Exec) (isReverse : Bool) : Result RmatchData :=
  if isReverse then e.callouts.foldlM rmatchCallout ⟨fun _ => 0, 0⟩ else .ok ⟨fun _ => 0, 0⟩

def matchPattern (e : Exec) (isReverse : Bool) : Result MatchResult := do
  let rmatch ← rmatchOf e isReverse
  if e.rc < 0 then
    if e.rc = PCRE_ERROR_NOMATCH then
      if isReverse ∧ rmatch.valid ≠ 0 then return .succeeded (indicesOf rmatch.valid rmatch.ovec)
      else return .failed
    else return .aborted
  else return .succeeded (indicesOf e.rc e.ovec)

def matchRebase (subject : Str) (subjectLen x : ℤ) : Result ℤ :=
  if x = 0 then .ok 0
  else if x < 1 ∨ subject.length+1 < x then .error (.undefined "read outside a string")
  else do
    let rest ← strlenUtf (subject.length+1) ((subject ++ [0]).drop (x-1).toNat)
    return subjectLen-rest+1

/-- The positions of a group as `do_match` stores them. -/
def rebased (subject : Str) (subjectLen : ℤ) (r : MatchIndices) : Result (Num×Num) := do
  let start ← matchRebase subject subjectLen r.start
  let stop ← matchRebase subject subjectLen (r.stop+1)
  return (BitVec.ofInt 64 start, BitVec.ofInt 64 (stop-1))

section
variable {P : Type} (pcreExec : P → Str → Bool → Exec)

/-- `pat` is what the pattern cache has for the pattern. The inner error is raised. -/
def doMatch (pat : Option P) (subject : Str) (reverse : Bool) : Result (Except Err Var) :=
  match pat with
  | none => .ok (.error .invarg)
  | some p => do
    match ← matchPattern (pcreExec p subject reverse) reverse with
    | .succeeded regs =>
      let subjectLen ← strlenUtf (subject.length+1) (subject ++ [0])
      let (start, stop) ← rebased subject subjectLen (regs 0)
      let pairs ← (List.range 9).mapM fun i => do
        let (start, stop) ← rebased subject subjectLen (regs (i+1))
        return Var.list [.int start, .int stop]
      return .ok (.list [.int start, .int stop, .list pairs, .str subject])
    | .failed => return .ok (.list [])
    | .aborted => return .error .quota

end

def invalidPair (num1 num2 max : ℤ) : Bool :=
  !((num1 = 0 && num2 = -1) || (num1 > 0 && num2 ≥ num1-1 && num2 ≤ max))

/-- Whether the second argument of `substitute` is no result of a match. -/
def checkSubsList : Var → Result Bool
  | .list [.int start, .int stop, .list pairs, .str subj] => do
    let length ← strlenUtf (subj.length+1) (subj ++ [0])
    return pairs.length ≠ 9 || invalidPair (toInt32 start) (toInt32 stop) length ||
      pairs.any fun
        | .list [.int start, .int stop] => invalidPair (toInt32 start) (toInt32 stop) length
        | _ => true
  | _ => .ok true

/-- The bytes that are copied for a group. -/
def copyGroup (subject : Str) (start stop : Num) : Result Str := do
  let start := toInt32 (start-1)
  let stop := toInt32 (stop-1)
  let w ← skipUtf (subject.length+1) (subject ++ [0]) start
  if ¬(FitsInt (stop-start) ∧ FitsInt (stop-start+1)) then .error (.undefined "integer overflow")
  else
    let count ← skipUtf (subject.length+1) ((subject ++ [0]).drop w) (stop-start+1)
    return (subject.drop w).take count

/-- The positions of a group in the argument of `substitute`. -/
def groupAt (start stop : Num) (pairs : List Var) (k : ℕ) : Result (Num×Num) :=
  if k = 0 then .ok (start, stop)
  else match pairs[k-1]? with
    | some (.list [.int start, .int stop]) => .ok (start, stop)
    | _ => .error (.undefined "element of a list")

/-- The loop over the template; the inner error is `invarg`. -/
def substituteLoop (subject : Str) (groups : ℕ → Result (Num×Num)) :
    Str → Str → Result (Except Err Str)
  | [], s => .ok (.ok s)
  | c::template, s =>
    if c ≠ 37 then substituteLoop subject groups template (s ++ [c])
    else match template with
      | [] => .ok (.error .invarg)
      | c::template =>
        if c = 37 then substituteLoop subject groups template (s ++ [37])
        else if 48 ≤ c ∧ c ≤ 57 then do
          let (start, stop) ← groups (c-48).toNat
          let piece ← copyGroup subject start stop
          substituteLoop subject groups template (s ++ piece)
        else .ok (.error .invarg)

def bfSubstitute (template : CStr) (subs : Var) : Result (Except Err Var) := do
  if ← checkSubsList subs then return .error .invarg
  else match subs with
    | .list [.int start, .int stop, .list pairs, .str subject] =>
      let s ← substituteLoop subject (groupAt start stop pairs) template.str []
      return s.map Var.str
    | _ => .error (.undefined "element of a list")

/-! ## What the library reports -/

/-- Each pair of offsets is unset or a range of whole characters. -/
def AtCharacters (cs : List Char) (rc : ℤ) (ov : ℕ → ℤ) : Prop :=
  ∀ i : ℕ, i < captured rc → (ov (2*i) = -1 ∧ ov (2*i+1) = -1) ∨ ∃ j k, j ≤ k ∧ k ≤ cs.length ∧
    ov (2*i) = (encode (cs.take j)).length ∧ ov (2*i+1) = (encode (cs.take k)).length

/-- The library reports offsets at the boundaries of characters, in its callouts as in its result;
a callout knows of no more groups than there is room for. -/
structure Behaves (cs : List Char) (e : Exec) : Prop where
  result : 0 ≤ e.rc → AtCharacters cs e.rc e.ovec
  callouts : ∀ block ∈ e.callouts, 0 < block.captureTop ∧ block.captureTop ≤ 10 ∧
    AtCharacters cs block.captureTop block.ovec

/-- The bytes of a group that is set. -/
def groupBytes (subject : Str) (rc : ℤ) (ov : ℕ → ℤ) (i : ℕ) : Str :=
  if i < captured rc ∧ ov (2*i) ≠ -1 then
    (subject.drop (ov (2*i)).toNat).take (ov (2*i+1)-ov (2*i)).toNat
  else []

/-- The bytes of the groups, as the library reports them in its result or in one of its callouts. -/
def Reported (e : Exec) (subject : Str) (bytes : ℕ → Str) : Prop :=
  (0 ≤ e.rc ∧ bytes = groupBytes subject e.rc e.ovec) ∨
    e.rc < 0 ∧ ∃ block ∈ e.callouts, bytes = groupBytes subject block.captureTop block.ovec

/-- A template and what it stands for. -/
inductive Expands (bytes : ℕ → Str) : Str → Str → Prop
  | nil : Expands bytes [] []
  | text {c : Byte} {template s : Str} (hc : c ≠ 37) (h : Expands bytes template s) :
      Expands bytes (c::template) (c::s)
  | percent {template s : Str} (h : Expands bytes template s) :
      Expands bytes (37::37::template) (37::s)
  | group {i : ℕ} {template s : Str} (hi : i < 10) (h : Expands bytes template s) :
      Expands bytes (37::(48+i.toUInt8)::template) (bytes i ++ s)

section Groups
variable {t : Text} (hfit : t.str.length+1 < 2^31)

theorem matchRebase_eq {k : ℕ} (hk : k ≤ t.chars.length) :
    matchRebase t.str t.chars.length (1+(encode (t.chars.take k)).length) = .ok (k+1) := by
  have hlen : (encode (t.chars.take k)).length ≤ t.str.length := by
    rw [Text.str, ← take_encode]
    exact List.length_take_le' _ _
  have hdrop : '\x00' ∉ t.chars.drop k := fun h => t.noNul (List.mem_of_mem_drop h)
  have hrest : (encode (t.chars.drop k)).length < t.str.length+1 := by
    have := congrArg List.length (drop_encode t.chars k [])
    simp only [List.append_nil, List.length_drop] at this
    rw [← this, Text.str]
    omega
  rw [matchRebase, if_neg (by omega), if_neg (by omega), add_sub_cancel_left, Int.toNat_natCast,
    Text.str, drop_encode, ← Text.str]
  simp only [strlenUtf_encode hdrop hrest, bind, Except.bind, List.length_drop]
  rw [Nat.cast_sub hk]
  exact congrArg Except.ok (by ring)

theorem rebased_eq {j k : ℕ} (hj : j ≤ t.chars.length) (hk : k ≤ t.chars.length) :
    rebased t.str t.chars.length
      ⟨1+(encode (t.chars.take j)).length, (encode (t.chars.take k)).length⟩ =
      .ok (BitVec.ofInt 64 (j+1), BitVec.ofInt 64 k) := by
  have hstop := matchRebase_eq hk
  rw [add_comm] at hstop
  simp only [rebased, matchRebase_eq hj, hstop, bind, Except.bind, add_sub_cancel_right]
  rfl

theorem rebased_unset (n : ℤ) : rebased t.str n ⟨0, -1⟩ = .ok (0, BitVec.ofInt 64 (-1)) := rfl

theorem toInt32_ofInt {n : ℤ} (h : FitsInt n) : toInt32 (BitVec.ofInt 64 n) = n := by
  have hn : (BitVec.ofInt 64 n).toInt = n := by
    rw [BitVec.toInt_ofInt]
    apply Int.bmod_eq_of_le <;> have := h.1 <;> have := h.2 <;> norm_num <;> omega
  rw [toInt32_eq (by rwa [hn]), hn]

theorem ofInt_sub_one (n : ℤ) : BitVec.ofInt 64 n-1 = BitVec.ofInt 64 (n-1) := by
  rw [Int.sub_eq_add_neg, BitVec.ofInt_add, BitVec.sub_eq_add_neg]
  congr 1

theorem take_split {j k : ℕ} (hjk : j ≤ k) (cs : List Char) :
    encode (cs.take k) = encode (cs.take j) ++ encode ((cs.drop j).take (k-j)) := by
  rw [← encode_append]
  congr 1
  conv_lhs => rw [show k = j+(k-j) by omega, List.take_add]

theorem length_chars_le : t.chars.length ≤ t.str.length := length_le_encode _

include hfit in
theorem copyGroup_eq {j k : ℕ} (hjk : j ≤ k) (hk : k ≤ t.chars.length) :
    copyGroup t.str (BitVec.ofInt 64 (j+1)) (BitVec.ofInt 64 k) = .ok
      ((t.str.drop (encode (t.chars.take j)).length).take
        ((encode (t.chars.take k)).length-(encode (t.chars.take j)).length : ℤ).toNat) := by
  have hle := length_chars_le (t := t)
  have hdrop : '\x00' ∉ t.chars.drop j := fun h => t.noNul (List.mem_of_mem_drop h)
  have hskip := skipUtf_encode t.noNul (j : ℤ) (Nat.lt_succ_of_le hle)
  have hshort : (t.chars.drop j).length < t.str.length+1 := by
    rw [List.length_drop]
    omega
  have hcount := skipUtf_encode hdrop ((k-j : ℕ) : ℤ) hshort
  rw [counted_nat] at hskip hcount
  have hlen : ((encode (t.chars.take k)).length-(encode (t.chars.take j)).length : ℤ).toNat =
      (encode ((t.chars.drop j).take (k-j))).length := by
    rw [take_split hjk, List.length_append]
    omega
  have hsub : ((k:ℤ)-1)-j+1 = (k-j : ℕ) := by omega
  have hfits : FitsInt ((k:ℤ)-1-j) ∧ FitsInt ((k-j : ℕ) : ℤ) :=
    ⟨⟨by omega, by omega⟩, by omega, by omega⟩
  rw [copyGroup, ofInt_sub_one, ofInt_sub_one, add_sub_cancel_right,
    toInt32_ofInt ⟨by omega, by omega⟩, toInt32_ofInt ⟨by omega, by omega⟩]
  simp only [Text.str] at hskip hcount ⊢
  simp only [hskip, bind, Except.bind, drop_encode, hsub, hcount, hlen]
  rw [if_neg (not_not.mpr hfits)]
  rfl

theorem copyGroup_unset : copyGroup t.str 0 (BitVec.ofInt 64 (-1)) = .ok [] := by
  have hskip := skipUtf_encode t.noNul (-1) (Nat.lt_succ_of_le (length_chars_le (t := t)))
  rw [copyGroup, show (0:Num)-1 = BitVec.ofInt 64 (-1) from rfl, ofInt_sub_one,
    toInt32_ofInt ⟨by omega, by omega⟩, toInt32_ofInt ⟨by omega, by omega⟩]
  simp only [Text.str] at hskip ⊢
  simp only [hskip, bind, Except.bind]
  rw [if_neg (by decide), show (-1:ℤ)-1- -1+1 = 0 by decide, skipUtf, if_pos (.inr rfl)]
  rfl

include hfit in
/-- What `substitute` copies for a group is what the library reported for it. -/
theorem group_copied {rc : ℤ} {ov : ℕ → ℤ} (h : AtCharacters t.chars rc ov) (i : ℕ) :
    ∃ a b, rebased t.str t.chars.length (indicesOf rc ov i) = .ok (a, b) ∧
      invalidPair (toInt32 a) (toInt32 b) t.chars.length = false ∧
      copyGroup t.str a b = .ok (groupBytes t.str rc ov i) := by
  have hunset : ∀ r : MatchIndices, r = ⟨0, -1⟩ → groupBytes t.str rc ov i = [] → ∃ a b,
      rebased t.str t.chars.length r = .ok (a, b) ∧
        invalidPair (toInt32 a) (toInt32 b) t.chars.length = false ∧
        copyGroup t.str a b = .ok (groupBytes t.str rc ov i) := by
    rintro r rfl hbytes
    refine ⟨0, BitVec.ofInt 64 (-1), rebased_unset _, ?_, by rw [hbytes, copyGroup_unset]⟩
    rw [toInt32_ofInt ⟨by omega, by omega⟩]
    rfl
  rw [indicesOf]
  split
  · next hi =>
    rcases h i hi with ⟨ha, hb⟩|⟨j, k, hjk, hk, ha, hb⟩
    · exact hunset _ (by rw [ha, hb]; rfl) (by rw [groupBytes, if_neg fun hset => hset.2 ha])
    · have hle := length_chars_le (t := t)
      refine ⟨_, _, by rw [ha, hb, rebased_eq (by omega) hk], ?_, ?_⟩
      · rw [toInt32_ofInt ⟨by omega, by omega⟩, toInt32_ofInt ⟨by omega, by omega⟩]
        simp [invalidPair]
        omega
      · rw [copyGroup_eq hfit hjk hk, groupBytes, if_pos ⟨hi, by omega⟩, ha, hb, Int.toNat_natCast]
  · next hi => exact hunset _ rfl (by rw [groupBytes, if_neg fun hset => hi hset.1])

end Groups

section Loop
variable {subject : Str} {groups : ℕ → Result (Num×Num)} {bytes : ℕ → Str}

theorem digit_byte {i : ℕ} (hi : i < 10) : 48+i.toUInt8 ≠ 37 ∧ 48 ≤ 48+i.toUInt8 ∧
    48+i.toUInt8 ≤ 57 ∧ (48+i.toUInt8-48).toNat = i := by
  decide +revert

theorem substituteLoop_expands (hg : ∀ i < 10, ∃ a b, groups i = .ok (a, b) ∧
    copyGroup subject a b = .ok (bytes i)) {template out : Str} (h : Expands bytes template out)
    (s : Str) : substituteLoop subject groups template s = .ok (.ok (s ++ out)) := by
  induction h generalizing s with
  | nil => rw [substituteLoop, List.append_nil]
  | text hc _ ih =>
    rw [substituteLoop.eq_def]
    simp only [if_pos hc, ih, List.append_assoc, List.singleton_append]
  | percent _ ih =>
    rw [substituteLoop, if_neg (by simp), if_pos rfl, ih, List.append_assoc]
    rfl
  | @group i _ _ hi _ ih =>
    obtain ⟨hne, hlo, hhi, hnum⟩ := digit_byte hi
    obtain ⟨a, b, hab, hcopy⟩ := hg i hi
    rw [substituteLoop, if_neg (by simp), if_neg hne, if_pos ⟨hlo, hhi⟩, hnum, hab]
    simp only [bind, Except.bind, hcopy, ih, List.append_assoc]

theorem substituteLoop_refuses (hg : ∀ i < 10, ∃ a b, groups i = .ok (a, b) ∧
    copyGroup subject a b = .ok (bytes i)) (template s : Str)
    (h : ¬∃ out, Expands bytes template out) :
    substituteLoop subject groups template s = .ok (.error .invarg) := by
  fun_induction substituteLoop subject groups template s with
  | case1 s => exact absurd ⟨[], .nil⟩ h
  | case2 c template s hc ih => exact ih fun ⟨out, hout⟩ => h ⟨c::out, .text hc hout⟩
  | case3 => rfl
  | case4 c s hc template ih =>
    obtain rfl := not_not.mp hc
    exact ih fun ⟨out, hout⟩ => h ⟨37::out, .percent hout⟩
  | case5 c s hc d template hd hdigit ih =>
    obtain rfl := not_not.mp hc
    have hlt : (d-48).toNat < 10 := by
      rw [UInt8.toNat_sub_of_le _ _ hdigit.1]
      have := UInt8.le_iff_toNat_le.mp hdigit.2
      simp at this ⊢
      omega
    have hback : 48+(d-48).toNat.toUInt8 = d := by
      rw [Nat.toUInt8, UInt8.ofNat_toNat]
      exact (UInt8.add_comm _ _).trans (UInt8.sub_add_cancel d 48)
    obtain ⟨a, b, hab, hcopy⟩ := hg _ hlt
    simp only [hab, bind, Except.bind, hcopy]
    refine ih _ fun ⟨out, hout⟩ => h ⟨bytes (d-48).toNat ++ out, ?_⟩
    have hgroup := Expands.group hlt hout
    rwa [hback] at hgroup
  | case6 => rfl

end Loop

section Library
variable {cs : List Char} {e : Exec}

/-- The data for a reverse match are those of a block. -/
def Holds (rmatch : RmatchData) (block : CalloutBlock) : Prop :=
  rmatch.valid = block.captureTop ∧ ∀ k < 2*block.captureTop, rmatch.ovec k = block.ovec k

theorem foldlM_callouts {blocks : List CalloutBlock}
    (h : ∀ block ∈ blocks, 0 < block.captureTop ∧ block.captureTop ≤ 10) (rmatch : RmatchData) :
    ∃ rmatch', blocks.foldlM rmatchCallout rmatch = .ok rmatch' ∧
      (rmatch' = rmatch ∨ ∃ block ∈ blocks, Holds rmatch' block) := by
  induction blocks generalizing rmatch with
  | nil => exact ⟨rmatch, rfl, .inl rfl⟩
  | cons block blocks ih =>
    have htop := h block List.mem_cons_self
    have hrest := fun b hb => h b (List.mem_cons_of_mem block hb)
    have hstep : ∃ r, rmatchCallout rmatch block = .ok r ∧ (r = rmatch ∨ Holds r block) := by
      rw [rmatchCallout]
      split
      · rw [if_neg (by omega)]
        exact ⟨_, rfl, .inr ⟨rfl, fun k hk => if_pos hk⟩⟩
      · exact ⟨rmatch, rfl, .inl rfl⟩
    obtain ⟨r, hr, hcase⟩ := hstep
    obtain ⟨r', hr', hcase'⟩ := ih hrest r
    refine ⟨r', ?_, ?_⟩
    · rw [List.foldlM_cons, hr]
      exact hr'
    · rcases hcase' with rfl|⟨b, hb, hholds⟩
      · rcases hcase with rfl|hholds
        · exact .inl rfl
        · exact .inr ⟨block, List.mem_cons_self, hholds⟩
      · exact .inr ⟨b, List.mem_cons_of_mem block hb, hholds⟩

theorem captured_top {n : ℕ} (h : 0 < n ∧ n ≤ 10) : captured n = n := by
  rw [captured, if_neg (by omega)]

/-- The positions of a successful match are made from offsets that the library reported. -/
theorem matchPattern_reported (h : Behaves cs e) (subject : Str) {isReverse : Bool}
    {regs : ℕ → MatchIndices} (hm : matchPattern e isReverse = .ok (.succeeded regs)) :
    ∃ rc ov, regs = indicesOf rc ov ∧ AtCharacters cs rc ov ∧
      Reported e subject (groupBytes subject rc ov) := by
  obtain ⟨rmatch, hr, hcase⟩ : ∃ rmatch, rmatchOf e isReverse = .ok rmatch ∧
      (rmatch = ⟨fun _ => 0, 0⟩ ∨ ∃ block ∈ e.callouts, Holds rmatch block) := by
    rw [rmatchOf]
    split
    · exact foldlM_callouts (fun block hb => ⟨(h.callouts block hb).1, (h.callouts block hb).2.1⟩) _
    · exact ⟨_, rfl, .inl rfl⟩
  rw [matchPattern, hr] at hm
  simp only [bind, Except.bind, pure, Except.pure] at hm
  split at hm
  · next hneg =>
    split at hm
    · split at hm
      · next hvalid =>
        obtain ⟨block, hb, htop, hov⟩ := hcase.resolve_left fun heq => by
          rw [heq] at hvalid
          exact hvalid.2 rfl
        obtain ⟨hpos, hle, hat⟩ := h.callouts block hb
        have hcap := captured_top ⟨hpos, hle⟩
        have hsame : ∀ i : ℕ, i < captured block.captureTop → rmatch.ovec (2*i) = block.ovec (2*i) ∧
            rmatch.ovec (2*i+1) = block.ovec (2*i+1) := by
          intro i hi
          rw [hcap] at hi
          exact ⟨hov _ (by omega), hov _ (by omega)⟩
        refine ⟨rmatch.valid, rmatch.ovec, ?_, ?_, .inr ⟨hneg, block, hb, ?_⟩⟩
        · cases hm
          rfl
        · intro i hi
          rw [htop] at hi
          rw [(hsame i hi).1, (hsame i hi).2]
          exact hat i hi
        · funext i
          rw [groupBytes, groupBytes, htop]
          by_cases hi : (i:ℤ) < captured block.captureTop
          · rw [(hsame i hi).1, (hsame i hi).2]
          · rw [if_neg fun hset => hi hset.1, if_neg fun hset => hi hset.1]
      · cases hm
    · cases hm
  · next hpos =>
    refine ⟨e.rc, e.ovec, ?_, h.result (by omega), .inl ⟨by omega, rfl⟩⟩
    cases hm
    rfl

end Library

theorem mapM_pure {α β : Type} {f : α → Result β} {g : α → β} {xs : List α}
    (h : ∀ x ∈ xs, f x = .ok (g x)) : xs.mapM f = .ok (xs.map g) := by
  induction xs with
  | nil => rfl
  | cons x xs ih =>
    rw [List.mapM_cons, h x List.mem_cons_self, ih fun y hy => h y (List.mem_cons_of_mem x hy)]
    rfl

section Match
variable {P : Type} (pcreExec : P → Str → Bool → Exec)

/-- A successful match gives positions that `substitute` takes, and it replaces each group by what
the library reported for it. -/
theorem match_substituted (p : P) (t : Text) (hfit : t.str.length+1 < 2^31) (reverse : Bool)
    (hlib : Behaves t.chars (pcreExec p t.str reverse)) {regs : ℕ → MatchIndices}
    (hm : matchPattern (pcreExec p t.str reverse) reverse = .ok (.succeeded regs)) :
    ∃ subs bytes, doMatch pcreExec (some p) t.str reverse = .ok (.ok subs) ∧
      Reported (pcreExec p t.str reverse) t.str bytes ∧ checkSubsList subs = .ok false ∧
      ∀ template : CStr,
        (∀ out, Expands bytes template.str out →
          bfSubstitute template subs = .ok (.ok (.str out))) ∧
        ((¬∃ out, Expands bytes template.str out) →
          bfSubstitute template subs = .ok (.error .invarg)) := by
  obtain ⟨rc, ov, rfl, hat, hrep⟩ := matchPattern_reported hlib t.str hm
  choose a b hab hvalid hcopy using group_copied hfit hat
  have hlen : strlenUtf (t.str.length+1) (t.str ++ [0]) = .ok t.chars.length :=
    strlenUtf_encode t.noNul (Nat.lt_succ_self _)
  let pairs := (List.range 9).map fun i => Var.list [.int (a (i+1)), .int (b (i+1))]
  let subs := Var.list [.int (a 0), .int (b 0), .list pairs, .str t.str]
  have hpairs : (List.range 9).mapM (fun i => do
      let (start, stop) ← rebased t.str t.chars.length (indicesOf rc ov (i+1))
      return Var.list [.int start, .int stop]) = .ok pairs :=
    mapM_pure fun i _ => by
      rw [hab]
      rfl
  have hdo : doMatch pcreExec (some p) t.str reverse = .ok (.ok subs) := by
    rw [doMatch]
    refine bind_ok.mpr ⟨_, hm, bind_ok.mpr ⟨_, hlen, bind_ok.mpr ⟨_, hab 0, ?_⟩⟩⟩
    exact bind_ok.mpr ⟨pairs, hpairs, rfl⟩
  have hcheck : checkSubsList subs = .ok false := by
    refine bind_ok.mpr ⟨_, hlen, congrArg Except.ok ?_⟩
    rw [Bool.or_eq_false_iff, Bool.or_eq_false_iff]
    refine ⟨⟨rfl, hvalid 0⟩, List.any_eq_false.mpr fun v hv => ?_⟩
    obtain ⟨i, -, rfl⟩ := List.mem_map.mp hv
    simpa using hvalid (i+1)
  have hg : ∀ i < 10, ∃ x y, groupAt (a 0) (b 0) pairs i = .ok (x, y) ∧
      copyGroup t.str x y = .ok (groupBytes t.str rc ov i) := by
    intro i hi
    refine ⟨a i, b i, ?_, hcopy i⟩
    rw [groupAt]
    cases i with
    | zero => rfl
    | succ i =>
      have hget : pairs[i]? = some (.list [.int (a (i+1)), .int (b (i+1))]) := by
        simp only [pairs, List.getElem?_map, List.getElem?_range (show i < 9 by omega), Option.map_some]
      rw [if_neg (Nat.succ_ne_zero i), Nat.add_sub_cancel, hget]
  refine ⟨subs, _, hdo, hrep, hcheck, fun template => ⟨fun out hout => ?_, fun hno => ?_⟩⟩
  · simp only [bfSubstitute, hcheck, subs, bind, Except.bind]
    rw [substituteLoop_expands hg hout]
    rfl
  · simp only [bfSubstitute, hcheck, subs, bind, Except.bind]
    rw [substituteLoop_refuses hg _ _ hno]
    rfl

end Match

/-- What the library reports of a match whose group 1 is the first character, of two bytes, whose
group 2 is unset and whose group 3 is empty. -/
def accentOffsets : ℕ → ℤ
  | 0 => 0 | 1 => 5
  | 2 => 0 | 3 => 2
  | 4 => -1 | 5 => -1
  | 6 => 2 | 7 => 2
  | _ => 0

def accentMatch (_ : Unit) (_ : Str) (_ : Bool) : Exec := ⟨[], 4, accentOffsets⟩

def accentText : Text := ⟨['é', 'a', 'ü'], by decide⟩

theorem accentMatch_behaves : Behaves accentText.chars (accentMatch () accentText.str false) where
  result _ i hi := by
    replace hi : (i : ℤ) < 4 := hi
    obtain rfl|rfl|rfl|rfl : i = 0 ∨ i = 1 ∨ i = 2 ∨ i = 3 := by omega
    · exact .inr ⟨0, 3, by decide, by decide, by decide, by decide⟩
    · exact .inr ⟨0, 1, by decide, by decide, by decide, by decide⟩
    · exact .inl ⟨rfl, rfl⟩
    · exact .inr ⟨1, 1, by decide, by decide, by decide, by decide⟩
  callouts block hb := by cases hb

/-- The template `<%1%2%3|%0%%>` gives `<é|éaü%>`. -/
theorem match_substituted_brackets : ∃ subs,
    doMatch accentMatch (some ()) accentText.str false = .ok (.ok subs) ∧
    bfSubstitute ⟨[60, 37, 49, 37, 50, 37, 51, 124, 37, 48, 37, 37, 62], by decide⟩ subs
      = .ok (.ok (.str (encode ['<', 'é', '|', 'é', 'a', 'ü', '%', '>']))) := by
  obtain ⟨subs, bytes, hdo, hrep, -, hall⟩ :=
    match_substituted accentMatch () accentText (by decide) false accentMatch_behaves rfl
  obtain rfl : bytes = groupBytes accentText.str 4 accentOffsets := by
    rcases hrep with ⟨-, h⟩|⟨hneg, -⟩
    · exact h
    · exact absurd hneg (by decide)
  have hend : Expands (groupBytes accentText.str 4 accentOffsets) [37, 37, 62] [37, 62] :=
    .percent (.text (by decide) .nil)
  have hgroups : Expands (groupBytes accentText.str 4 accentOffsets)
      [37, 49, 37, 50, 37, 51, 124, 37, 48, 37, 37, 62] _ :=
    .group (i := 1) (by decide) (.group (i := 2) (by decide) (.group (i := 3) (by decide)
      (.text (c := 124) (by decide) (.group (i := 0) (by decide) hend))))
  exact ⟨subs, hdo, (hall _).1 _ (.text (c := 60) (by decide) hgroups)⟩

/-- A `%` with a letter behind it is not copied: the template is refused. -/
theorem stray_percent_refused :
    Behaves accentText.chars (accentMatch () accentText.str false) ∧ ∃ subs,
      doMatch accentMatch (some ()) accentText.str false = .ok (.ok subs) ∧
      bfSubstitute ⟨[37, 97], by decide⟩ subs = .ok (.error .invarg) :=
  ⟨accentMatch_behaves, _, rfl, rfl⟩

end LambdaMoo.Patterns
