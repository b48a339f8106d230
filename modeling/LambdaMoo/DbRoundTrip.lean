import Mathlib.Data.List.TakeWhile
import LambdaMoo.DbIo

/-!
# Written values are read back

A routine reads a text when it returns the value written there and leaves the
file just after it, with nothing reported. The routines of the reader compose
along the bytes of the writer, and the fixed buffers are large enough for
every number and cut every string at places the next call takes up.
-/

set_option autoImplicit false

namespace LambdaMoo.DbIo
open LambdaMoo.Decimal

/-- The input once `bs` is read: only the static buffer is not said. -/
def Input.past (f : Input) (bs rest : List Byte) (b : Str) : Input :=
  {f with rest := rest, pos := f.pos+bs.length, buffer := b}

def Reads {α : Type} (read : Input → Result (α × Input)) (bs : List Byte) (a : α) : Prop :=
  ∀ (f : Input) (rest : List Byte), f.rest = bs ++ rest →
    ∃ b, read f = .ok (a, f.past bs rest b)

theorem past_past (f : Input) (bs cs rest rest' : List Byte) (b b' : Str) :
    (f.past bs rest' b).past cs rest b' = f.past (bs ++ cs) rest b' := by
  simp [Input.past, Nat.add_assoc]

theorem Reads.bind {α β : Type} {read : Input → Result (α × Input)} {bs cs : List Byte} {a : α}
    {k : α × Input → Result (β × Input)} {b : β} (h : Reads read bs a)
    (hn : Reads (fun f => k (a, f)) cs b) :
    Reads (fun f => read f >>= k) (bs ++ cs) b := by
  intro f rest hf
  obtain ⟨u, hu⟩ := h f (cs ++ rest) (by simpa using hf)
  obtain ⟨w, hw⟩ := hn (f.past bs (cs ++ rest) u) rest rfl
  refine ⟨w, bind_ok.mpr ⟨_, hu, ?_⟩⟩
  rw [past_past] at hw
  exact hw

theorem reads_nil {α : Type} (a : α) : Reads (fun f => .ok (a, f)) [] a := by
  intro f rest hf
  exact ⟨f.buffer, by simp [Input.past, ← show f.rest = rest by simpa using hf]⟩

theorem Reads.map {α β : Type} {read : Input → Result (α × Input)} {bs : List Byte} {a : α}
    (h : Reads read bs a) (g : α → β) :
    Reads (fun f => do let (a, f) ← read f; .ok (g a, f)) bs (g a) := by
  have := h.bind (k := fun r => .ok (g r.1, r.2)) (reads_nil (g a))
  simpa using this

theorem line_within {n : ℕ} {s rest : List Byte} (hs : 10 ∉ s) (hn : s.length < n) :
    line n (s ++ 10::rest) = s ++ [10] := by
  induction s generalizing n with
  | nil =>
    obtain ⟨m, rfl⟩ : ∃ m, n = m+1 := ⟨n-1, by simp at hn; omega⟩
    simp [line]
  | cons b s ih =>
    obtain ⟨m, rfl⟩ : ∃ m, n = m+1 := ⟨n-1, by simp at hn; omega⟩
    simp only [List.mem_cons, not_or] at hs
    rw [List.cons_append, line, if_neg (Ne.symm hs.1), ih hs.2 (by simpa using hn)]
    rfl

theorem line_beyond {n : ℕ} {s rest : List Byte} (hs : 10 ∉ s) (hn : n ≤ s.length) :
    line n (s ++ rest) = s.take n := by
  induction s generalizing n with
  | nil =>
    have : n = 0 := by simpa using hn
    simp [this, line]
  | cons b s ih =>
    cases n with
    | zero => simp [line]
    | succ n =>
      simp only [List.mem_cons, not_or] at hs
      rw [List.cons_append, line, if_neg (Ne.symm hs.1), ih hs.2 (by simpa using hn)]
      rfl

theorem cstr_of_not_mem {s : List Byte} (h : 0 ∉ s) : cstr s = s := by
  rw [cstr, List.takeWhile_eq_self_iff]
  intro b hb
  simp only [ne_eq, decide_eq_true_eq]
  intro h0
  exact h (h0 ▸ hb)

theorem fgets_reads {size : ℕ} {s : List Byte} (h0 : 0 ∉ s) (h10 : 10 ∉ s)
    (hs : s.length+1 < size) : Reads (fgets size) (s ++ [10]) (s ++ [10]) := by
  intro f rest hf
  have hl : line (size-1) f.rest = s ++ [10] := by
    rw [hf, List.append_assoc]
    exact line_within h10 (by omega)
  have hc : cstr (s ++ [10]) = s ++ [10] := cstr_of_not_mem (by simp [h0])
  refine ⟨f.buffer, ?_⟩
  rw [fgets, if_neg (by simp [hf]), hl]
  simp [hc, Input.advance, Input.past, hf]

theorem clamp_toInt (n : Num) : clamp n.toInt = n := by
  have h1 := n.le_toInt
  have h2 := n.toInt_lt
  rw [clamp, if_neg (by simpa using h1), if_neg (by simpa using h2), BitVec.ofInt_toInt]

theorem sign_printNat (n : ℕ) (r : Str) : sign (printNat n ++ r) = (false, printNat n ++ r) := by
  obtain ⟨b, bs, hb, hd⟩ := printNat_cons n
  have := isDigit_toNat hd
  rw [hb, List.cons_append]
  unfold sign
  split
  · simp_all
  · simp_all
  · rfl

theorem sign_print (z : ℤ) (r : Str) :
    sign (print z ++ r) = (decide (z < 0), printNat z.natAbs ++ r) := by
  rw [print]
  split
  · next h => simp [sign, h]
  · next h => simp [sign_printNat, h]

theorem print_head (z : ℤ) : ∃ b bs, print z = b::bs ∧ isspace b = false := by
  obtain ⟨b, bs, hb, hd⟩ := printNat_cons z.natAbs
  have hn := isDigit_toNat hd
  rw [print]
  split
  · exact ⟨45, _, rfl, by decide⟩
  · refine ⟨b, bs, hb, ?_⟩
    have h32 : b ≠ 32 := by
      intro h
      simp [h] at hn
    simp only [isspace, h32, decide_false, Bool.false_or, Bool.and_eq_false_iff, decide_eq_false_iff_not]
    omega

theorem strtoll_print (n : Num) : strtoll (print n.toInt ++ [10]) = (n, [10]) := by
  obtain ⟨b, bs, hb, hs⟩ := print_head n.toInt
  have hd : (print n.toInt ++ [10]).dropWhile isspace = print n.toInt ++ [10] := by
    simp [hb, hs]
  obtain ⟨c, cs, hc, hdig⟩ := printNat_cons n.toInt.natAbs
  have hscan : scan 0 (printNat n.toInt.natAbs ++ [10]) = (n.toInt.natAbs, [10]) :=
    scan_printNat _ (stops_cons (by decide))
  rw [strtoll, hd, sign_print]
  have ha : (printNat n.toInt.natAbs ++ [10]).head?.any isDigit = true := by simp [hc, hdig]
  simp only [ha, if_true, hscan, Prod.mk.injEq, and_true, decide_eq_true_eq]
  have hz : (if n.toInt < 0 then -(n.toInt.natAbs:ℤ) else n.toInt.natAbs) = n.toInt := by
    split
    · omega
    · omega
  rw [hz, clamp_toInt]

/-- The longest number has twenty bytes, and the buffer has room for the newline after it. -/
theorem print_num_length (n : Num) : (print n.toInt).length ≤ 20 := by
  have h1 := n.le_toInt
  have h2 := n.toInt_lt
  apply print_length (by decide)
  simp at h1 h2
  omega

theorem dbioReadNum_reads (n : Num) : Reads dbioReadNum (dbioWriteNum n) n := by
  have hl := print_num_length n
  have hg : Reads (fgets 22) (dbioWriteNum n) (dbioWriteNum n) :=
    fgets_reads (print_not_mem _ (by decide) (by decide))
      (print_not_mem _ (by decide) (by decide)) (by omega)
  intro f rest hf
  obtain ⟨b, hb⟩ := hg f rest hf
  refine ⟨b, bind_ok.mpr ⟨_, hb, ?_⟩⟩
  obtain ⟨c, cs, hc, hs⟩ := print_head n.toInt
  have hh : (dbioWriteNum n).head?.any isspace = false := by simp [dbioWriteNum, hc, hs]
  have ht : strtoll (dbioWriteNum n) = (n, [10]) := strtoll_print n
  simp [hh, ht]

theorem dbioReadInt_reads (n : ℕ) (h : n < 2^31) :
    Reads dbioReadInt (dbioWriteNum (BitVec.ofNat 64 n)) (n:ℤ) := by
  have hm := (dbioReadNum_reads (BitVec.ofNat 64 n)).map fun n => (n.truncate 32).toInt
  have hn : ((BitVec.ofNat 64 n).truncate 32).toInt = n := by
    have hx : ((BitVec.ofNat 64 n).truncate 32) = BitVec.ofNat 32 n := by
      apply BitVec.eq_of_toNat_eq
      simp
    rw [hx, BitVec.toInt_eq_toNat_of_lt (by simp; omega)]
    simp
    omega
  rw [hn] at hm
  exact hm

theorem fill_beyond {f : Input} {s rest : List Byte} (h0 : 0 ∉ s) (h10 : 10 ∉ s)
    (hs : 1023 ≤ s.length) (hf : f.rest = s ++ rest) :
    f.fill = f.past (s.take 1023) (s.drop 1023 ++ rest) (s.take 1023) := by
  have hl : line 1023 f.rest = s.take 1023 := by
    rw [hf, line_beyond h10 hs]
  have hc : cstr (s.take 1023) = s.take 1023 :=
    cstr_of_not_mem fun h => h0 (List.mem_of_mem_take h)
  have hne : f.rest ≠ [] := by
    intro h
    simp [hf] at h
    simp [h.1] at hs
  rw [Input.fill, if_neg hne, hl]
  simp [hc, Input.advance, Input.past, hf, List.drop_append, hs]

theorem fill_within {f : Input} {s rest : List Byte} (h0 : 0 ∉ s) (h10 : 10 ∉ s)
    (hs : s.length < 1023) (hf : f.rest = s ++ 10::rest) :
    f.fill = f.past (s ++ [10]) rest (s ++ [10]) := by
  have hl : line 1023 f.rest = s ++ [10] := by
    rw [hf, line_within h10 hs]
  have hc : cstr (s ++ [10]) = s ++ [10] := cstr_of_not_mem (by simp [h0])
  rw [Input.fill, if_neg (by simp [hf]), hl]
  simp [hc, Input.advance, Input.past, hf]

/-- A string as long as the buffer or longer is read a full buffer at a time. -/
theorem tryAgain_reads (n : ℕ) (str : Str) (s : Str) (h0 : 0 ∉ s) (h10 : 10 ∉ s)
    (hn : s.length < n) : Reads (tryAgain n str) (dbioWriteString s) (str ++ s) := by
  induction n generalizing str s with
  | zero => omega
  | succ n ih =>
    intro f rest hf
    by_cases hs : s.length < 1023
    · have hg := fill_within h0 h10 hs (by simpa [dbioWriteString] using hf)
      refine ⟨s, ?_⟩
      simp only [tryAgain, hg, Input.past, List.getLast?_append, List.getLast?_singleton]
      simp [dbioWriteString]
    · have hs' : 1023 ≤ s.length := by omega
      have hg := fill_beyond h0 h10 hs' (by rw [hf, dbioWriteString, List.append_assoc])
      have hlen : (s.take 1023).length = 1023 := by simp [hs']
      have hlast : (s.take 1023).getLast? ≠ some 10 := by
        intro h
        exact h10 (List.mem_of_mem_take (List.mem_of_getLast? h))
      obtain ⟨b, hb⟩ := ih (str ++ s.take 1023) (s.drop 1023)
        (fun h => h0 (List.mem_of_mem_drop h)) (fun h => h10 (List.mem_of_mem_drop h))
        (by simp; omega) f.fill rest (by simp [hg, Input.past, dbioWriteString])
      refine ⟨b, ?_⟩
      rw [tryAgain]
      have hbuf : f.fill.buffer = s.take 1023 := by rw [hg]; rfl
      rw [if_pos (by rw [hbuf]; exact ⟨hlen, hlast⟩), hbuf, hb, hg, past_past,
        dbioWriteString, ← List.append_assoc, List.append_assoc str, List.take_append_drop]
      rfl

theorem dbioReadString_reads (s : Str) (h0 : 0 ∉ s) (h10 : 10 ∉ s) :
    Reads dbioReadString (dbioWriteString s) s := by
  intro f rest hf
  have hl : s.length < f.rest.length+1 := by
    rw [hf, dbioWriteString, List.length_append, List.length_append]
    omega
  exact tryAgain_reads _ [] s h0 h10 hl f rest hf

/-- Masking gives back the type that is in the file. -/
theorem memType_mask (t : VarType) : memType t &&& typeDbMask = dbType t := by
  cases t with
  | _ => decide

theorem dbType_lt (t : VarType) : dbType t < 2^31 := by
  cases t with
  | _ => decide

theorem readType_reads (t : VarType) : Reads dbioReadInt (dbioWriteType t) (dbType t:ℤ) := by
  rw [dbioWriteType, memType_mask]
  exact dbioReadInt_reads _ (dbType_lt t)

theorem dbioWriteType_length (t : VarType) : 0 < (dbioWriteType t).length := by
  simp [dbioWriteType, dbioWriteNum]

theorem oldType_dbType (version : DbVersion) (t : VarType) : oldType version (dbType t) = dbType t := by
  apply if_neg
  rintro ⟨h, -⟩
  simp [typeAny] at h

theorem errOf_errNum (upper : BitVec 32) (e : Err) : errOf (errNum upper e) = .ok (.err e) := by
  have ht : (errNum upper e).truncate 32 = BitVec.ofNat 32 (errCode e) :=
    BitVec.setWidth_append_eq_right
  rw [errOf, ht]
  cases e with
  | _ => rfl

theorem readErr_reads (upper : BitVec 32) (e : Err) :
    Reads (fun f => do
      let (n, f) ← dbioReadNum f
      let e ← errOf n
      .ok (e, f)) (dbioWriteNum (errNum upper e)) (.err e) := by
  have hk : Reads (fun f => do let e ← errOf (errNum upper e); .ok (e, f)) [] (Var.err e) := by
    rw [errOf_errNum]
    exact reads_nil (Var.err e)
  have h := (dbioReadNum_reads (errNum upper e)).bind
    (k := fun r => do let e ← errOf r.1; .ok (e, r.2)) hk
  simpa using h

theorem readVar_reads {o : Others} {n : ℕ} {t : VarType} {bs : List Byte} {v : Var}
    (h : Reads (dbioReadRest o (readVar o n) (dbType t)) bs v) :
    Reads (readVar o (n+1)) (dbioWriteType t ++ bs) v := by
  apply (readType_reads t).bind
  simp only [oldType_dbType]
  exact h

theorem readMany_reads_cons {α : Type} {read : Input → Result (α × Input)} {bs cs : List Byte}
    {a : α} {as : List α} {n : ℕ} (ha : Reads read bs a) (has : Reads (readMany read n) cs as) :
    Reads (readMany read (n+1)) (bs ++ cs) (a::as) :=
  ha.bind (has.map (a::·))

theorem dbioReadList_reads {read : Input → Result (Var × Input)} {vs : List Var}
    {bs : List Byte} (hl : vs.length < 2^31) (h : Reads (readMany read vs.length) bs vs) :
    Reads (dbioReadList read) (dbioWriteNum (BitVec.ofNat 64 vs.length) ++ bs) (.list vs) := by
  apply (dbioReadInt_reads _ hl).bind
  have hn : ¬ ((vs.length:ℤ) < 0) := by omega
  simp only [hn, if_false, Int.toNat_natCast]
  exact h.map Var.list

mutual
/-- Any fuel as large as the text is enough: each level of a list takes a byte of it. -/
theorem readVar_write (o : Others) : ∀ (v : Var) (upper : List ℕ → BitVec 32) (n : ℕ), Plain v →
    (dbioWriteVar o upper v).length ≤ n → Reads (readVar o (n+1)) (dbioWriteVar o upper v) v
  | .clear, upper, n, _, _ => by
    have h := readVar_reads (o := o) (n := n) (t := .clear) (reads_nil Var.clear)
    simpa [dbioWriteVar] using h
  | .none, upper, n, _, _ => by
    have h := readVar_reads (o := o) (n := n) (t := .none) (reads_nil Var.none)
    simpa [dbioWriteVar] using h
  | .str s, upper, n, hp, _ => readVar_reads ((dbioReadString_reads s hp.1 hp.2).map Var.str)
  | .obj i, upper, n, _, _ => readVar_reads ((dbioReadNum_reads i).map Var.obj)
  | .err e, upper, n, _, _ => readVar_reads (readErr_reads _ e)
  | .int i, upper, n, _, _ => readVar_reads ((dbioReadNum_reads i).map Var.int)
  | .catch i, upper, n, _, _ => readVar_reads ((dbioReadNum_reads i).map Var.catch)
  | .finally i, upper, n, _, _ => readVar_reads ((dbioReadNum_reads i).map Var.finally)
  | .float _, _, _, hp, _ => hp.elim
  | .waif _, _, _, hp, _ => hp.elim
  | .list vs, upper, n, hp, hn => by
    rw [dbioWriteVar, List.append_assoc]
    apply readVar_reads
    apply dbioReadList_reads hp.1
    apply readMany_write o vs upper n hp.2
    have ht := dbioWriteType_length .list
    rw [dbioWriteVar] at hn
    simp only [List.length_append] at hn
    omega
theorem readMany_write (o : Others) : ∀ (vs : List Var) (upper : List ℕ → BitVec 32) (n : ℕ),
    PlainList vs → (dbioWriteVars o upper vs).length < n →
    Reads (readMany (readVar o n) vs.length) (dbioWriteVars o upper vs) vs
  | [], _, _, _, _ => reads_nil []
  | v::vs, upper, 0, _, hn => by omega
  | v::vs, upper, n+1, hp, hn => by
    rw [dbioWriteVars] at hn ⊢
    simp only [List.length_append] at hn
    apply readMany_reads_cons
    · exact readVar_write o v _ n hp.1 (by omega)
    · exact readMany_write o vs upper (n+1) hp.2 (by omega)
end

theorem dbioReadVar_reads (o : Others) (upper : List ℕ → BitVec 32) {v : Var} (h : Plain v) :
    Reads (dbioReadVar o) (dbioWriteVar o upper v) v := by
  intro f rest hf
  apply readVar_write o v upper _ h _ f rest hf
  simp [hf]

theorem dbioReadVars_reads (o : Others) (upper : List ℕ → BitVec 32) {vs : List Var}
    (h : ∀ v ∈ vs, Plain v) :
    Reads (readMany (dbioReadVar o) vs.length) (dbioWriteVars o upper vs) vs := by
  induction vs with
  | nil => exact reads_nil []
  | cons v vs ih =>
    apply readMany_reads_cons
    · exact dbioReadVar_reads o _ (h v (by simp))
    · exact ih fun w hw => h w (by simp [hw])

/-- A plain value is read back as it was written, and the file is left just after it, with
nothing reported; and so is every sequence of plain values, read one after the other. -/
theorem written_values_read_back (o : Others) (upper : List ℕ → BitVec 32) (vs : List Var)
    (h : ∀ v ∈ vs, Plain v) (f : Input) (rest : List Byte) :
    (∀ v ∈ vs, f.rest = dbioWriteVar o upper v ++ rest →
      ∃ b, dbioReadVar o f = .ok (v, {f with
        rest := rest, pos := f.pos+(dbioWriteVar o upper v).length, buffer := b})) ∧
    (f.rest = dbioWriteVars o upper vs ++ rest →
      ∃ b, readMany (dbioReadVar o) vs.length f = .ok (vs, {f with
        rest := rest, pos := f.pos+(dbioWriteVars o upper vs).length, buffer := b})) := by
  constructor
  · intro v hv hf
    exact dbioReadVar_reads o upper (h v hv) f rest hf
  · intro hf
    exact dbioReadVars_reads o upper h f rest hf

/-- A nested list with the least integer, an error and a marker of the stack. -/
def mixed : List Var :=
  [.list [.int (BitVec.intMin 64), .str [97, 92, 34], .list []], .err .perm, .catch 2]

def noOthers : Others where
  readFloat _ := .error (.undefined "no float is read")
  writeFloat _ := []
  readWaif _ := .error (.undefined "no waif is read")
  writeWaif _ := []

/-- The file that holds them, with the start of the next line. -/
def mixedFile : Input where
  rest := dbioWriteVars noOthers (fun _ => 7) mixed ++ [46]
  pos := 0
  buffer := []
  log := []
  version := .bfBugFixed

theorem mixed_plain : ∀ v ∈ mixed, Plain v := by
  simp [mixed, Plain, PlainList]

theorem written_values_read_back_mixed : (∀ v ∈ mixed, Plain v) ∧
    ∃ b, readMany (dbioReadVar noOthers) 3 mixedFile = .ok (mixed, {mixedFile with
      rest := [46], pos := 0+(dbioWriteVars noOthers (fun _ => 7) mixed).length, buffer := b}) :=
  ⟨mixed_plain,
    (written_values_read_back noOthers (fun _ => 7) mixed mixed_plain mixedFile [46]).2 rfl⟩

end LambdaMoo.DbIo
