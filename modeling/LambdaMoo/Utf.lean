import Mathlib.Tactic.Ring
import Mathlib.Tactic.Linarith
import Mathlib.Data.List.Basic

/-!
# The two UTF-8 decoders

`getUtf` walks a NUL-terminated string, `getUtfCall` pulls bytes from a client
and keeps at most one byte of overrun in its state. Both read a lead byte and
then the same number of continuation bytes, but the string decoder subtracts
`0x80` in an unsigned byte and the client decoder in a signed int, so they
disagree about what a continuation byte is.
-/

set_option autoImplicit false

namespace LambdaMoo.Utf

def INVALID_RUNE : ℤ := 0xfffd
def EOF : ℤ := -1

/-- The range checks after the continuation bytes, `n` of them read. -/
def ranged : ℕ → ℤ → ℤ
  | 1, v => if v ≤ 0x7f then INVALID_RUNE else v
  | 2, v => if v ≤ 0x7ff ∨ (v ≥ 0xd800 ∧ v ≤ 0xdfff) then INVALID_RUNE else v
  | _, v => if v ≤ 0xffff ∨ v > 0x10ffff then INVALID_RUNE else v

/-- What a lead byte starts: a rune of its own, or `n` continuation bytes on top of `v`. -/
inductive Lead where
  | rune (v : ℤ)
  | seq (n : ℕ) (v : ℤ)
  deriving DecidableEq, Repr

def lead (c : ℤ) : Lead :=
  if c ≤ 0x7f then .rune c
  else if c ≤ 0xbf then .rune INVALID_RUNE
  else if c ≤ 0xdf then .seq 1 (c % 0x20)
  else if c ≤ 0xef then .seq 2 (c % 0x10)
  else if c ≤ 0xf7 then .seq 3 (c % 0x08)
  else .rune INVALID_RUNE

def int (c : UInt8) : ℤ := (c.toNat : ℤ)

/-- `n` times `GET_CONT` of `get_utf`. The outer `none` is a read past the string, the inner
one the jump to `bad_cont`. -/
def getConts : ℕ → ℤ → List UInt8 → Option (Option ℤ × List UInt8)
  | 0, v, p => some (some v, p)
  | _ + 1, _, [] => none
  | n + 1, v, c :: p =>
    if c - 0x80 > 0x3f then some (none, c :: p)
    else getConts n (v * 64 + int (c - 0x80)) p

def getUtf : List UInt8 → Option (ℤ × List UInt8)
  | [] => none
  | c :: p =>
    match lead (int c) with
    | .rune v => some (v, p)
    | .seq n v => (getConts n v p).map fun r => (r.1.elim INVALID_RUNE (ranged n), r.2)

/-- A client that delivers its bytes and then `EOF`, however often it is asked. -/
structure Source where
  bytes : List UInt8
  eofs : ℕ
  deriving DecidableEq, Repr

def Source.getch (s : Source) : ℤ × Source :=
  match s.bytes with
  | [] => (EOF, { s with eofs := s.eofs + 1 })
  | c :: cs => (int c, { s with bytes := cs })

/-- `n` times `GET_CONT` of `get_utf_call`; on `bad_cont` the byte read goes into the state. -/
def callConts : ℕ → ℤ → Source → Option ℤ × ℤ × Source
  | 0, v, s => (some v, -1, s)
  | n + 1, v, s =>
    let cc := s.getch.1
    if cc - 0x80 > 0x3f then (none, cc, s.getch.2)
    else callConts n (v * 64 + (cc - 0x80)) s.getch.2

def fromLead (c : ℤ) (s : Source) : ℤ × ℤ × Source :=
  match lead c with
  | .rune v => (v, -1, s)
  | .seq n v =>
    let r := callConts n v s
    (r.1.elim INVALID_RUNE (ranged n), r.2)

def getUtfCall (state : ℤ) (s : Source) : ℤ × ℤ × Source :=
  if state ≠ -1 then fromLead state s
  else if s.getch.1 = EOF then (EOF, state, s.getch.2)
  else fromLead s.getch.1 s.getch.2

/-- One result of a decoder and the number of bytes its next character starts from the end. -/
structure Decoded where
  rune : ℤ
  left : ℕ
  deriving DecidableEq, Repr

/-- `get_utf` again and again, until it returns the terminator. -/
def runUtf : ℕ → List UInt8 → Option (List Decoded)
  | 0, _ => none
  | fuel + 1, s =>
    match getUtf s with
    | none => none
    | some (v, p) =>
      if v = 0 then some []
      else (runUtf fuel p).map (⟨v, p.length - 1⟩ :: ·)

/-- `get_utf_call` again and again, until it returns `EOF`; beside each result, whether the
call took an `EOF` for one of its bytes. -/
def runUtfCall : ℕ → ℤ → Source → Option (List (Decoded × Bool))
  | 0, _, _ => none
  | fuel + 1, state, s =>
    let r := getUtfCall state s
    let left := r.2.2.bytes.length + if r.2.1 = -1 then 0 else 1
    if r.1 = EOF then some []
    else (runUtfCall fuel r.2.1 r.2.2).map ((⟨r.1, left⟩, decide (s.eofs < r.2.2.eofs)) :: ·)

/-- The decoders agree on a string: the same results, the same places to go on from, and no
end of input inside a character. -/
def Agree (bs : List UInt8) : Prop :=
  (runUtfCall (bs.length + 1) (-1) ⟨bs,0⟩).map (List.map Prod.fst) =
      runUtf (bs.length + 1) (bs ++ [0]) ∧
    ∀ t, runUtfCall (bs.length + 1) (-1) ⟨bs,0⟩ = some t → ∀ e ∈ t, e.2 = false

/-- A continuation byte. -/
def IsCont (c : UInt8) : Prop := 0x80 ≤ c ∧ c ≤ 0xbf

instance (c : UInt8) : Decidable (IsCont c) := inferInstanceAs (Decidable (_ ∧ _))

/-- The number of continuation bytes a byte asks for. -/
def need (c : UInt8) : ℕ :=
  match lead (int c) with
  | .rune _ => 0
  | .seq n _ => n

def clearanceUtf (c : UInt8) : ℕ :=
  if c ≤ 0x7f then 1
  else if c ≤ 0xbf then 1
  else if c ≤ 0xdf then 2
  else if c ≤ 0xef then 3
  else if c ≤ 0xf7 then 4
  else 1

theorem clearanceUtf_eq (b : UInt8) : clearanceUtf b = need b+1 := by
  have hle : ∀ n : UInt8, b ≤ n ↔ int b ≤ int n := by
    intro n
    rw [UInt8.le_iff_toNat_le, int, int, Nat.cast_le]
  simp only [clearanceUtf, need, lead, hle, show int 0x7f = 0x7f from rfl,
    show int 0xbf = 0xbf from rfl, show int 0xdf = 0xdf from rfl, show int 0xef = 0xef from rfl,
    show int 0xf7 = 0xf7 from rfl]
  by_cases h7 : int b ≤ 0x7f
  · simp only [if_pos h7]
  by_cases hb : int b ≤ 0xbf
  · simp only [if_neg h7, if_pos hb]
  by_cases hd : int b ≤ 0xdf
  · simp only [if_neg h7, if_neg hb, if_pos hd]
  by_cases he : int b ≤ 0xef
  · simp only [if_neg h7, if_neg hb, if_neg hd, if_pos he]
  by_cases hf : int b ≤ 0xf7
  · simp only [if_neg h7, if_neg hb, if_neg hd, if_neg he, if_pos hf]
  · simp only [if_neg h7, if_neg hb, if_neg hd, if_neg he, if_neg hf]

/-- What follows is `n` continuation bytes, or fewer and then a byte from `0xc0` on. -/
def Stopped : ℕ → List UInt8 → Prop
  | 0, _ => True
  | _ + 1, [] => False
  | n + 1, c :: p => if IsCont c then Stopped n p else 0xc0 ≤ c

/-- No character is cut short by an ASCII byte or by the end of the string. -/
def Whole : List UInt8 → Prop
  | [] => True
  | c :: p => Stopped (need c) p ∧ Whole p

instance decidableStopped : (n : ℕ) → (p : List UInt8) → Decidable (Stopped n p)
  | 0, _ => .isTrue trivial
  | _ + 1, [] => .isFalse id
  | n + 1, c :: p =>
    have := decidableStopped n p
    inferInstanceAs (Decidable (if IsCont c then Stopped n p else 0xc0 ≤ c))

instance decidableWhole : (p : List UInt8) → Decidable (Whole p)
  | [] => .isTrue trivial
  | c :: p =>
    have := decidableWhole p
    inferInstanceAs (Decidable (Stopped (need c) p ∧ Whole p))

theorem isCont_iff (c : UInt8) : IsCont c ↔ 0x80 ≤ c.toNat ∧ c.toNat ≤ 0xbf := by
  simp [IsCont, UInt8.le_iff_toNat_le]

theorem sub_toNat (c : UInt8) : (c - 0x80).toNat = (c.toNat + 0x80) % 256 := by
  rw [UInt8.toNat_sub, Nat.add_comm]
  rfl

theorem sub_gt_iff (c : UInt8) : c - 0x80 > 0x3f ↔ ¬ IsCont c := by
  rw [gt_iff_lt, UInt8.lt_iff_toNat_lt, sub_toNat, isCont_iff]
  have h := c.toNat_lt
  simp only [UInt8.reduceToNat]
  omega

theorem sub_int (c : UInt8) (h : IsCont c) : int (c - 0x80) = int c - 0x80 := by
  rw [isCont_iff] at h
  unfold int
  rw [sub_toNat]
  omega

theorem int_gt_iff (c : UInt8) : int c - 0x80 > 0x3f ↔ 0xc0 ≤ c := by
  rw [UInt8.le_iff_toNat_le]
  simp only [UInt8.reduceToNat, int]
  omega

theorem IsCont.lt {c : UInt8} (h : IsCont c) : ¬ 0xc0 ≤ c := by
  rw [isCont_iff] at h
  rw [UInt8.le_iff_toNat_le]
  simp only [UInt8.reduceToNat]
  omega

theorem IsCont.need {c : UInt8} (h : IsCont c) : need c = 0 := by
  rw [isCont_iff] at h
  have h1 : ¬ int c ≤ 0x7f := by unfold int; omega
  have h2 : int c ≤ 0xbf := by unfold int; omega
  simp [Utf.need, lead, h1, h2]

theorem int_ne (c : UInt8) : int c ≠ -1 := by
  have h : 0 ≤ int c := Int.natCast_nonneg _
  omega

theorem whole_append {used p : List UInt8} (h : ∀ c ∈ used, IsCont c) :
    Whole (used ++ p) ↔ Whole p := by
  induction used with
  | nil => rfl
  | cons c used ih =>
    have hc : need c = 0 := (h c List.mem_cons_self).need
    simp only [List.cons_append, Whole, hc, Stopped, true_and]
    exact ih fun d hd => h d (List.mem_cons_of_mem _ hd)

/-- A state of the client decoder that stands for the bytes `p` still to be decoded. -/
def Pending (state : ℤ) (q p : List UInt8) : Prop :=
  (state = -1 ∧ q = p) ∨ ∃ c, p = c :: q ∧ state = int c

/-- The bytes the client decoder has not decoded. -/
def ahead (state : ℤ) (s : Source) : ℕ :=
  s.bytes.length + if state = -1 then 0 else 1

theorem Pending.ahead {state : ℤ} {q p : List UInt8} {e : ℕ} (h : Pending state q p) :
    ahead state ⟨q,e⟩ = p.length := by
  obtain ⟨rfl, rfl⟩ | ⟨c, rfl, rfl⟩ := h
  · rfl
  · simp [Utf.ahead, int_ne]

theorem getConts_split (n : ℕ) (v : ℤ) (p : List UInt8) :
    ∃ used o q, p = used ++ q ∧ (∀ c ∈ used, IsCont c) ∧
      getConts n v (p ++ [0]) = some (o, q ++ [0]) := by
  induction n generalizing v p with
  | zero => exact ⟨[], some v, p, rfl, by simp, rfl⟩
  | succ n ih =>
    cases p with
    | nil => exact ⟨[], none, [], rfl, by simp, rfl⟩
    | cons c p =>
      by_cases hc : IsCont c
      · obtain ⟨used, o, q, rfl, hused, hget⟩ := ih (v * 64 + int (c - 0x80)) p
        refine ⟨c :: used, o, q, rfl, by simpa using ⟨hc, hused⟩, ?_⟩
        rw [List.cons_append, getConts, if_neg (by simpa [sub_gt_iff] using hc)]
        exact hget
      · refine ⟨[], none, c :: p, rfl, by simp, ?_⟩
        exact if_pos ((sub_gt_iff c).mpr hc)

theorem callConts_nil (n : ℕ) (v : ℤ) (e : ℕ) :
    callConts (n + 1) v ⟨[],e⟩ = callConts n (v * 64 + (EOF - 0x80)) ⟨[],e + 1⟩ := rfl

theorem callConts_stop {c : UInt8} (n : ℕ) (v : ℤ) (p : List UInt8) (e : ℕ) (h : 0xc0 ≤ c) :
    callConts (n + 1) v ⟨c :: p,e⟩ = (none, int c, ⟨p,e⟩) :=
  if_pos ((int_gt_iff c).mpr h)

theorem callConts_take {c : UInt8} (n : ℕ) (v : ℤ) (p : List UInt8) (e : ℕ) (h : ¬ 0xc0 ≤ c) :
    callConts (n + 1) v ⟨c :: p,e⟩ = callConts n (v * 64 + (int c - 0x80)) ⟨p,e⟩ :=
  if_neg fun hc => h ((int_gt_iff c).mp hc)

theorem callConts_ahead (n : ℕ) (v : ℤ) (s : Source) :
    ahead (callConts n v s).2.1 (callConts n v s).2.2 ≤ s.bytes.length ∧
      s.eofs ≤ (callConts n v s).2.2.eofs := by
  induction n generalizing v s with
  | zero => simp [callConts, ahead]
  | succ n ih =>
    obtain ⟨bytes, eofs⟩ := s
    cases bytes with
    | nil =>
      have h := ih (v * 64 + (EOF - 0x80)) ⟨[],eofs + 1⟩
      rw [callConts_nil]
      exact ⟨h.1, (Nat.le_succ _).trans h.2⟩
    | cons c p =>
      by_cases hc : 0xc0 ≤ c
      · rw [callConts_stop n v p eofs hc]
        simp [ahead, int_ne]
      · have h := ih (v * 64 + (int c - 0x80)) ⟨p,eofs⟩
        rw [callConts_take n v p eofs hc]
        exact ⟨h.1.trans (by simp), h.2⟩

theorem conts_agree {n : ℕ} {v : ℤ} {p q : List UInt8} {o : Option ℤ} (e : ℕ)
    (h : Stopped n p) (hget : getConts n v (p ++ [0]) = some (o, q ++ [0])) :
    ∃ state r, callConts n v ⟨p,e⟩ = (o, state, ⟨r,e⟩) ∧ Pending state r q := by
  induction n generalizing v p with
  | zero =>
    simp only [getConts, Option.some.injEq, Prod.mk.injEq, List.append_cancel_right_eq] at hget
    obtain ⟨rfl, rfl⟩ := hget
    exact ⟨-1, p, rfl, .inl ⟨rfl, rfl⟩⟩
  | succ n ih =>
    cases p with
    | nil => exact h.elim
    | cons c p =>
      rw [List.cons_append, getConts] at hget
      by_cases hc : IsCont c
      · rw [if_neg (by simpa [sub_gt_iff] using hc), sub_int c hc] at hget
        rw [callConts_take n v p e hc.lt]
        rw [Stopped, if_pos hc] at h
        exact ih h hget
      · rw [if_pos ((sub_gt_iff c).mpr hc), ← List.cons_append] at hget
        simp only [Option.some.injEq, Prod.mk.injEq, List.append_cancel_right_eq] at hget
        obtain ⟨rfl, rfl⟩ := hget
        rw [Stopped, if_neg hc] at h
        rw [callConts_stop n v p e h]
        exact ⟨int c, p, rfl, .inr ⟨c, rfl, rfl⟩⟩

theorem conts_differ {n : ℕ} {v : ℤ} {p q : List UInt8} {o : Option ℤ} (e : ℕ)
    (h : ¬ Stopped n p) (hget : getConts n v (p ++ [0]) = some (o, q ++ [0])) :
    ahead (callConts n v ⟨p,e⟩).2.1 (callConts n v ⟨p,e⟩).2.2 < q.length ∨
      e < (callConts n v ⟨p,e⟩).2.2.eofs := by
  induction n generalizing v p with
  | zero => exact absurd trivial h
  | succ n ih =>
    cases p with
    | nil =>
      right
      have hle := (callConts_ahead n (v * 64 + (EOF - 0x80)) ⟨[], e + 1⟩).2
      rw [callConts_nil]
      exact hle
    | cons c p =>
      rw [List.cons_append, getConts] at hget
      by_cases hc : IsCont c
      · rw [if_neg (by simpa [sub_gt_iff] using hc), sub_int c hc] at hget
        rw [callConts_take n v p e hc.lt]
        rw [Stopped, if_pos hc] at h
        exact ih h hget
      · rw [if_pos ((sub_gt_iff c).mpr hc), ← List.cons_append] at hget
        simp only [Option.some.injEq, Prod.mk.injEq, List.append_cancel_right_eq] at hget
        obtain ⟨rfl, rfl⟩ := hget
        rw [Stopped, if_neg hc] at h
        rw [callConts_take n v p e h]
        left
        have hle := (callConts_ahead n (v * 64 + (int c - 0x80)) ⟨p,e⟩).1
        exact Nat.lt_succ_of_le hle

theorem getUtf_split (c : UInt8) (p : List UInt8) :
    ∃ used v q, p = used ++ q ∧ (∀ d ∈ used, IsCont d) ∧
      getUtf (c :: p ++ [0]) = some (v, q ++ [0]) := by
  simp only [List.cons_append, getUtf]
  cases lead (int c) with
  | rune v => exact ⟨[], v, p, rfl, by simp, rfl⟩
  | seq n v =>
    obtain ⟨used, o, q, hp, hused, hget⟩ := getConts_split n v p
    exact ⟨used, o.elim INVALID_RUNE (ranged n), q, hp, hused, by simp only [hget]; rfl⟩

theorem ranged_pos (n : ℕ) (v : ℤ) : 0 < ranged n v := by
  unfold ranged
  split <;> split <;> first | decide | omega

theorem lead_pos {c v : ℤ} (hc : 0 < c) (h : lead c = .rune v) : 0 < v := by
  unfold lead at h
  split at h
  · cases h
    exact hc
  · split at h
    · cases h
      decide
    · repeat' split at h
      all_goals cases h
      decide

theorem getUtf_pos {c : UInt8} {p q : List UInt8} {v : ℤ} (hc : c ≠ 0)
    (h : getUtf (c :: p) = some (v, q)) : 0 < v := by
  have hpos : 0 < int c := by
    have : c.toNat ≠ 0 := fun h => hc (UInt8.toNat_inj.mp h)
    unfold int
    omega
  simp only [getUtf] at h
  cases hl : lead (int c) with
  | rune w =>
    rw [hl] at h
    cases h
    exact lead_pos hpos hl
  | seq n w =>
    rw [hl] at h
    obtain ⟨⟨o, r⟩, -, hr⟩ := Option.map_eq_some_iff.mp h
    cases hr
    cases o with
    | none => exact show (0 : ℤ) < 0xfffd by decide
    | some u => exact ranged_pos n u

theorem fromLead_agree {c : UInt8} {p q : List UInt8} {v : ℤ} (e : ℕ)
    (h : Stopped (need c) p) (hget : getUtf (c :: p ++ [0]) = some (v, q ++ [0])) :
    ∃ state r, fromLead (int c) ⟨p,e⟩ = (v, state, ⟨r,e⟩) ∧ Pending state r q := by
  simp only [List.cons_append, getUtf, need, fromLead] at *
  cases hl : lead (int c) with
  | rune w =>
    rw [hl] at hget
    simp only [Option.some.injEq, Prod.mk.injEq, List.append_cancel_right_eq] at hget
    obtain ⟨rfl, rfl⟩ := hget
    exact ⟨-1, p, rfl, .inl ⟨rfl, rfl⟩⟩
  | seq n w =>
    rw [hl] at h hget
    obtain ⟨⟨o, q'⟩, hconts, hr⟩ := Option.map_eq_some_iff.mp hget
    simp only [Prod.mk.injEq] at hr
    obtain ⟨rfl, rfl⟩ := hr
    obtain ⟨state, r, hcall, hp⟩ := conts_agree e h hconts
    exact ⟨state, r, by simp only [hcall], hp⟩

theorem fromLead_differ {c : UInt8} {p q : List UInt8} {v : ℤ} (e : ℕ)
    (h : ¬ Stopped (need c) p) (hget : getUtf (c :: p ++ [0]) = some (v, q ++ [0])) :
    ahead (fromLead (int c) ⟨p,e⟩).2.1 (fromLead (int c) ⟨p,e⟩).2.2 < q.length ∨
      e < (fromLead (int c) ⟨p,e⟩).2.2.eofs := by
  simp only [List.cons_append, getUtf, need, fromLead] at *
  cases hl : lead (int c) with
  | rune w =>
    rw [hl] at h
    exact absurd trivial h
  | seq n w =>
    rw [hl] at h hget
    obtain ⟨⟨o, q'⟩, hconts, hr⟩ := Option.map_eq_some_iff.mp hget
    simp only [Prod.mk.injEq] at hr
    obtain ⟨-, rfl⟩ := hr
    exact conts_differ e h hconts

theorem fromLead_ahead (c : ℤ) (s : Source) :
    ahead (fromLead c s).2.1 (fromLead c s).2.2 ≤ s.bytes.length := by
  unfold fromLead
  cases lead c with
  | rune v => simp [ahead]
  | seq n v => exact (callConts_ahead n v s).1

theorem Pending.getUtfCall {state : ℤ} {c : UInt8} {q p : List UInt8} {e : ℕ}
    (h : Pending state q (c :: p)) : getUtfCall state ⟨q,e⟩ = fromLead (int c) ⟨p,e⟩ := by
  obtain ⟨rfl, rfl⟩ | ⟨d, hd, rfl⟩ := h
  · exact (if_neg (by decide)).trans (if_neg (int_ne c))
  · cases hd
    exact if_pos (int_ne c)

theorem getUtfCall_ahead (state : ℤ) (s : Source) :
    (getUtfCall state s).1 = EOF ∨
      ahead (getUtfCall state s).2.1 (getUtfCall state s).2.2 < ahead state s := by
  by_cases h : state = -1
  · obtain ⟨bytes, eofs⟩ := s
    subst h
    cases bytes with
    | nil => exact .inl rfl
    | cons c p =>
      right
      rw [Pending.getUtfCall (.inl ⟨rfl, rfl⟩)]
      exact Nat.lt_succ_of_le (fromLead_ahead (int c) ⟨p,eofs⟩)
  · right
    have hle := fromLead_ahead state s
    rw [show getUtfCall state s = fromLead state s from if_pos h]
    simp only [ahead, if_neg h] at *
    omega

theorem runUtf_complete (fuel : ℕ) (p : List UInt8) (hp : p.length < fuel) :
    ∃ t, runUtf fuel (p ++ [0]) = some t := by
  induction fuel generalizing p with
  | zero => omega
  | succ fuel ih =>
    unfold runUtf
    cases p with
    | nil => exact ⟨[], rfl⟩
    | cons c p =>
      obtain ⟨used, v, q, rfl, -, hget⟩ := getUtf_split c p
      rw [hget]
      by_cases hv : v = 0
      · exact ⟨[], if_pos hv⟩
      · obtain ⟨t, ht⟩ := ih q (by simp at hp; omega)
        exact ⟨_, by simp only [if_neg hv, ht]; rfl⟩

theorem runUtfCall_complete (fuel : ℕ) (state : ℤ) (s : Source) (hs : ahead state s < fuel) :
    ∃ t, runUtfCall fuel state s = some t := by
  induction fuel generalizing state s with
  | zero => omega
  | succ fuel ih =>
    unfold runUtfCall
    by_cases hv : (getUtfCall state s).1 = EOF
    · exact ⟨[], if_pos hv⟩
    · have hlt := (getUtfCall_ahead state s).resolve_left hv
      obtain ⟨t, ht⟩ := ih (getUtfCall state s).2.1 (getUtfCall state s).2.2 (by omega)
      exact ⟨_, by simp only [if_neg hv, ht]; rfl⟩

theorem runs_agree_iff (fuel : ℕ) {state : ℤ} {p q : List UInt8} {e : ℕ} {t : List Decoded}
    {t' : List (Decoded × Bool)} (hst : Pending state q p) (h0 : 0 ∉ p)
    (h : runUtf fuel (p ++ [0]) = some t) (h' : runUtfCall fuel state ⟨q,e⟩ = some t') :
    (t'.map Prod.fst = t ∧ ∀ r ∈ t', r.2 = false) ↔ Whole p := by
  induction fuel generalizing state p q e t t' with
  | zero => cases h
  | succ fuel ih =>
    cases p with
    | nil =>
      obtain ⟨rfl, rfl⟩ | ⟨c, hc, -⟩ := hst
      · cases h
        cases h'
        simp [Whole]
      · cases hc
    | cons c p =>
      obtain ⟨used, v, r, hp, hused, hget⟩ := getUtf_split c p
      have hc : c ≠ 0 := fun hc => h0 (hc ▸ List.mem_cons_self)
      have hv : 0 < v := getUtf_pos hc hget
      rw [runUtf, hget] at h
      simp only [if_neg hv.ne', Option.map_eq_some_iff] at h
      obtain ⟨t, ht, rfl⟩ := h
      rw [runUtfCall, hst.getUtfCall] at h'
      by_cases hs : Stopped (need c) p
      · obtain ⟨state', q', hlead, hst'⟩ := fromLead_agree e hs hget
        have hv' : v ≠ EOF := by
          have : EOF = -1 := rfl
          omega
        have hleft : q'.length + (if state' = -1 then 0 else 1) = r.length := hst'.ahead (e := e)
        simp only [hlead, if_neg hv', Option.map_eq_some_iff, hleft] at h'
        obtain ⟨t', ht', rfl⟩ := h'
        have hr : 0 ∉ r := fun hr => h0 (by simp [hp, hr])
        have hih := ih hst' hr ht ht'
        rw [Whole, and_iff_right hs, hp, whole_append hused, ← hih]
        simp
      · refine iff_of_false ?_ fun hw => hs hw.1
        rintro ⟨hmap, hfold⟩
        by_cases hv' : (fromLead (int c) ⟨p,e⟩).1 = EOF
        · rw [if_pos hv'] at h'
          cases h'
          cases hmap
        · simp only [if_neg hv', Option.map_eq_some_iff] at h'
          obtain ⟨t', -, rfl⟩ := h'
          have hleft := (List.cons.inj hmap).1
          have hnone := hfold _ List.mem_cons_self
          simp only [Decoded.mk.injEq, List.length_append, List.length_singleton] at hleft
          have hd := fromLead_differ e hs hget
          simp only [ahead] at hd
          simp only [decide_eq_false_iff_not] at hnone
          omega

/-- Both decoders come to an end, and they agree exactly on the strings none of whose
characters is cut short by an ASCII byte or by the end of the string. -/
theorem agree_iff_whole (bs : List UInt8) (h : 0 ∉ bs) :
    (∃ t t', runUtf (bs.length + 1) (bs ++ [0]) = some t ∧
      runUtfCall (bs.length + 1) (-1) ⟨bs,0⟩ = some t') ∧ (Agree bs ↔ Whole bs) := by
  obtain ⟨t, ht⟩ := runUtf_complete (bs.length + 1) bs (Nat.lt_succ_self _)
  obtain ⟨t', ht'⟩ := runUtfCall_complete (bs.length + 1) (-1) ⟨bs,0⟩ (Nat.lt_succ_self _)
  refine ⟨⟨t, t', ht, ht'⟩, ?_⟩
  rw [← runs_agree_iff (bs.length + 1) (.inl ⟨rfl, rfl⟩) h ht ht']
  simp [Agree, ht, ht']

theorem agree_iff_whole_stopped :
    (0 : UInt8) ∉ [0xe3, 0x80, 0xc3, 0xa9] ∧ Agree [0xe3, 0x80, 0xc3, 0xa9] :=
  ⟨by decide, (agree_iff_whole [0xe3, 0x80, 0xc3, 0xa9] (by decide)).2.mpr (by decide)⟩

/-- `C3 41` is an invalid sequence and the letter `A` to one decoder and a single rune to the
other, and a `C5` at the end of input is an invalid sequence to one and a rune to the other. -/
theorem truncated_disagree :
    (0 : UInt8) ∉ [0xc3, 0x41] ∧ ¬ Agree [0xc3, 0x41] ∧
      (0 : UInt8) ∉ [0xc5] ∧ ¬ Agree [0xc5] := by
  refine ⟨by decide, fun h => ?_, by decide, fun h => ?_⟩
  · exact absurd h.1 (by decide)
  · exact absurd h.1 (by decide)

end LambdaMoo.Utf
