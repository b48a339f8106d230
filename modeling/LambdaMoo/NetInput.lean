import LambdaMoo.Binary
import LambdaMoo.Folding

/-!
# Input from the network

`pull_input` carries the bytes of an unfinished character over to the next
read, in front of what that read delivers. The end of the buffer is computed
from the number of bytes read alone, so that as many bytes as were carried over
are left out of account: a byte is lost as soon as a read ends within a
character.
-/

set_option autoImplicit false

namespace LambdaMoo.NetInput
open LambdaMoo.Utf LambdaMoo.Parse LambdaMoo.Execute LambdaMoo.Strings

/-- The loop of `stream_delete_utf`, from the last byte on. -/
def deleteBack : List Byte → Result (List Byte)
  | [] => .error (.undefined "byte before a stream")
  | b::bs => if b &&& 0xc0 = 0x80 then deleteBack bs else .ok bs

def streamDeleteUtf (s : Str) : Result Str :=
  if s = [] then return [] else do return (← deleteBack s.reverse).reverse

structure NHandle where
  input : Str
  excessUtf : Str
  lastInputWasCR : Bool
  binary : Bool
  deriving DecidableEq, Repr

/-- What a read leads to: the lines that `server_receive_line` gets, and the bytes of the
characters that were processed. -/
structure Pulled where
  handle : NHandle
  lines : List Str
  taken : Str
  deriving DecidableEq, Repr

section Pull
variable (isPrintable : ℤ → Bool)

/-- What a character does to the stream, and the line that it ends. -/
def receiveText (c : ℤ) (h : NHandle) : Result (Str×List Str) :=
  if isPrintable c then return (streamAddUtf h.input c, [])
  else if c = 0x08 ∨ c = 0x7f then do return (← streamDeleteUtf h.input, [])
  else if c = 13 ∨ c = 10 ∧ h.lastInputWasCR = false then return ([], [h.input])
  else return (h.input, [])

/-- The body of the loop of `pull_input`. -/
def receive (c : ℤ) (h : NHandle) : Result (NHandle×List Str) := do
  let (input, lines) ← receiveText isPrintable c h
  return ({ h with input := input, lastInputWasCR := c = 13 }, lines)

/-- The loop of `pull_input`, from `ptr` on; `left` is `end - ptr`. -/
def pullLoop : ℕ → Str → ℕ → NHandle → Result Pulled
  | 0, _, _, _ => .error .outOfFuel
  | fuel+1, p, left, h =>
    match p with
    | [] => if left = 0 then return ⟨{ h with excessUtf := [] }, [], []⟩
      else .error (.undefined "byte behind a buffer")
    | b::_ =>
      if 0 < left ∧ clearanceUtf b ≤ left then
        match getUtf p with
        | none => .error (.undefined "byte behind a buffer")
        | some (c, q) => do
          let (h, lines) ← receive isPrintable c h
          let r ← pullLoop fuel q (left-(p.length-q.length)) h
          return { r with lines := lines ++ r.lines, taken := p.take (p.length-q.length) ++ r.taken }
      else return ⟨{ h with excessUtf := p.take left }, [], []⟩

/-- `pull_input`, where `read` returned some bytes, at most 1024 less those carried over. -/
def pullInput (h : NHandle) (chunk : Str) : Result Pulled :=
  let count := chunk.length
  let buffer := h.excessUtf ++ chunk
  if count = 0 then return ⟨h, [], []⟩
  else if h.binary then
    return ⟨{ h with input := [], lastInputWasCR := false, excessUtf := [] },
      [h.input ++ Binary.rawBytesToBinary (buffer.take count)], buffer.take count⟩
  else pullLoop isPrintable (count+1) buffer count h

/-- Successive reads. -/
def pullAll : NHandle → List Str → Result Pulled
  | h, [] => return ⟨h, [], []⟩
  | h, chunk::chunks => do
    let r ← pullInput isPrintable h chunk
    let rs ← pullAll r.handle chunks
    return { rs with lines := r.lines ++ rs.lines, taken := r.taken ++ rs.taken }

end Pull

def newNhandle : NHandle := ⟨[], [], false, false⟩

/-! ## Characters -/

theorem getConts_length {n : ℕ} {v : ℤ} {p q : Str} {o : Option ℤ}
    (h : getConts n v p = some (o, q)) : q.length ≤ p.length ∧ p.length ≤ q.length+n := by
  induction n generalizing v p with
  | zero =>
    obtain ⟨-, rfl⟩ := Prod.mk.inj (Option.some.inj h)
    exact ⟨le_rfl, le_rfl⟩
  | succ n ih =>
    cases p with
    | nil => cases h
    | cons c p =>
      rw [getConts] at h
      split at h
      · obtain ⟨-, rfl⟩ := Prod.mk.inj (Option.some.inj h)
        exact ⟨le_rfl, Nat.le_add_right _ _⟩
      · have := ih h
        rw [List.length_cons]
        omega

/-- A call of `get_utf` consumes a byte, and no more than the clearance. -/
theorem getUtf_clearance {b : Byte} {p q : Str} {c : ℤ} (h : getUtf (b::p) = some (c, q)) :
    q.length ≤ p.length ∧ p.length+1 ≤ q.length+clearanceUtf b := by
  rw [clearanceUtf_eq, need]
  rw [getUtf] at h
  cases hl : lead (int b) with
  | rune v =>
    rw [hl] at h
    obtain ⟨-, rfl⟩ := Prod.mk.inj (Option.some.inj h)
    exact ⟨le_rfl, le_rfl⟩
  | seq n v =>
    rw [hl] at h
    obtain ⟨⟨o, q'⟩, hc, hr⟩ := Option.map_eq_some_iff.mp h
    obtain ⟨-, rfl⟩ := Prod.mk.inj hr
    have := getConts_length hc
    exact ⟨this.1, by dsimp only; omega⟩

/-! ## Bytes that are lost -/

section Reads
variable {isPrintable : ℤ → Bool}

theorem receive_keeps {c : ℤ} {h h' : NHandle} {lines : List Str}
    (hr : receive isPrintable c h = .ok (h', lines)) :
    h'.binary = h.binary ∧ h'.excessUtf = h.excessUtf := by
  obtain ⟨r, -, hr⟩ := bind_ok.mp hr
  obtain ⟨rfl, rfl⟩ := Prod.mk.inj (Except.ok.inj hr)
  exact ⟨rfl, rfl⟩

theorem pullLoop_taken {fuel left : ℕ} {p : Str} {h : NHandle} {r : Pulled} (hp : left ≤ p.length)
    (hr : pullLoop isPrintable fuel p left h = .ok r) :
    r.taken.length+r.handle.excessUtf.length = left ∧ r.handle.binary = h.binary := by
  induction fuel generalizing p left h r with
  | zero => cases hr
  | succ fuel ih =>
    cases p with
    | nil =>
      obtain rfl : left = 0 := Nat.le_zero.mp hp
      obtain rfl := Except.ok.inj hr
      exact ⟨rfl, rfl⟩
    | cons b p =>
      rw [pullLoop] at hr
      split at hr
      · rename_i hb
        cases hg : getUtf (b::p) with
        | none =>
          rw [hg] at hr
          cases hr
        | some cq =>
          obtain ⟨c, q⟩ := cq
          have hq := getUtf_clearance hg
          rw [hg] at hr
          obtain ⟨⟨h1, lines⟩, hrec, hr⟩ := bind_ok.mp hr
          obtain ⟨r', hloop, hr⟩ := bind_ok.mp hr
          obtain rfl := Except.ok.inj hr
          rw [List.length_cons] at hp hloop
          obtain ⟨hlen, hbin⟩ := ih (by omega) hloop
          refine ⟨?_, hbin.trans (receive_keeps hrec).1⟩
          dsimp only
          rw [List.length_append, List.length_take, List.length_cons]
          omega
      · obtain rfl := Except.ok.inj hr
        refine ⟨?_, rfl⟩
        rw [List.length_nil, List.length_take]
        omega

/-- A read that leaves nothing over, of bytes that well-formed ones begin with, ends where a
character ends. -/
theorem pullLoop_whole {fuel : ℕ} {cs : List Char} {p more : Str} {h : NHandle} {r : Pulled}
    (hcs : p ++ more = encode cs) (hr : pullLoop isPrintable fuel p p.length h = .ok r)
    (he : r.handle.excessUtf = []) : ∃ ds es, p = encode ds ∧ cs = ds ++ es := by
  induction cs generalizing fuel p h r with
  | nil =>
    obtain ⟨rfl, -⟩ := List.append_eq_nil_iff.mp hcs
    exact ⟨[], [], rfl, rfl⟩
  | cons c cs ih =>
    cases fuel with
    | zero => cases hr
    | succ fuel =>
      cases p with
      | nil => exact ⟨[], c::cs, rfl, rfl⟩
      | cons b p =>
        obtain ⟨l, tl, hl, -⟩ := utf8_shape c
        rw [encode_cons, hl] at hcs
        obtain ⟨rfl, htail⟩ : b = l ∧ p ++ more = tl ++ encode cs := List.cons.inj hcs
        rw [pullLoop] at hr
        split at hr
        · rename_i hb
          rw [clearanceUtf_char c hl, List.length_cons] at hb
          obtain ⟨q, rfl⟩ : ∃ q, p = tl ++ q := by
            have htl : tl <+: p ++ more := htail ▸ List.prefix_append tl _
            obtain ⟨q, hq⟩ :=
              List.prefix_of_prefix_length_le htl (List.prefix_append p more) (by omega)
            exact ⟨q, hq.symm⟩
          rw [List.append_assoc] at htail
          have hg : getUtf (b::(tl ++ q)) = some (rune c, q) := by
            rw [← List.cons_append, ← hl]
            exact getUtf_char c q
          rw [hg] at hr
          obtain ⟨⟨h1, lines⟩, -, hr⟩ := bind_ok.mp hr
          obtain ⟨r', hloop, hr⟩ := bind_ok.mp hr
          obtain rfl := Except.ok.inj hr
          rw [List.length_cons, List.length_append,
            show tl.length+q.length+1-(tl.length+q.length+1-q.length) = q.length by omega] at hloop
          obtain ⟨ds, es, rfl, rfl⟩ := ih (List.append_cancel_left htail) hloop he
          refine ⟨c::ds, es, ?_, rfl⟩
          rw [encode_cons, hl]
          rfl
        · obtain rfl := Except.ok.inj hr
          rw [List.take_length] at he
          cases he

theorem pullInput_taken {h : NHandle} {chunk : Str} {r : Pulled} (hb : h.binary = false)
    (hr : pullInput isPrintable h chunk = .ok r) : r.handle.binary = false ∧
      r.taken.length ≤ chunk.length ∧
      (h.excessUtf = [] → r.taken.length = chunk.length → r.handle.excessUtf = [] ∧
        ∀ {cs : List Char} {more : Str}, chunk ++ more = encode cs →
          ∃ ds es, chunk = encode ds ∧ cs = ds ++ es) := by
  simp only [pullInput, hb, Bool.false_eq_true, if_false] at hr
  by_cases h0 : chunk.length = 0
  · rw [if_pos h0] at hr
    obtain rfl := Except.ok.inj hr
    obtain rfl := List.eq_nil_of_length_eq_zero h0
    exact ⟨hb, le_rfl, fun he _ => ⟨he, fun _ => ⟨[], _, rfl, rfl⟩⟩⟩
  · rw [if_neg h0] at hr
    obtain ⟨hlen, hbin⟩ := pullLoop_taken (by rw [List.length_append]; omega) hr
    refine ⟨hbin.trans hb, by omega, fun he ht => ?_⟩
    have hnone : r.handle.excessUtf = [] := List.eq_nil_of_length_eq_zero (by omega)
    rw [he, List.nil_append] at hr
    exact ⟨hnone, fun hcs => pullLoop_whole hcs hr hnone⟩

theorem pullAll_taken {chunks : List Str} {h : NHandle} {r : Pulled} (hb : h.binary = false)
    (hr : pullAll isPrintable h chunks = .ok r) : r.taken.length ≤ chunks.flatten.length := by
  induction chunks generalizing h r with
  | nil =>
    obtain rfl := Except.ok.inj hr
    exact le_rfl
  | cons chunk chunks ih =>
    obtain ⟨r1, h1, hr⟩ := bind_ok.mp hr
    obtain ⟨r2, h2, hr⟩ := bind_ok.mp hr
    obtain rfl := Except.ok.inj hr
    obtain ⟨hb1, hle, -⟩ := pullInput_taken hb h1
    have := ih hb1 h2
    rw [List.flatten_cons, List.length_append, List.length_append]
    omega

/-- Reads that process every byte all end where a character ends. -/
theorem pullAll_whole {chunks : List Str} {h : NHandle} {r : Pulled} {cs : List Char}
    (hb : h.binary = false) (he : h.excessUtf = []) (hcs : chunks.flatten = encode cs)
    (hr : pullAll isPrintable h chunks = .ok r) (ht : r.taken.length = chunks.flatten.length) :
    ∀ chunk ∈ chunks, ∃ ds, chunk = encode ds := by
  induction chunks generalizing h r cs with
  | nil => simp
  | cons chunk chunks ih =>
    obtain ⟨r1, h1, hr⟩ := bind_ok.mp hr
    obtain ⟨r2, h2, hr⟩ := bind_ok.mp hr
    obtain rfl := Except.ok.inj hr
    obtain ⟨hb1, hle, hwhole⟩ := pullInput_taken hb h1
    have hle2 := pullAll_taken hb1 h2
    dsimp only at ht
    rw [List.flatten_cons, List.length_append, List.length_append] at ht
    obtain ⟨he1, hds⟩ := hwhole he (by omega)
    rw [List.flatten_cons] at hcs
    obtain ⟨ds, es, rfl, rfl⟩ := hds hcs
    rw [encode_append] at hcs
    have hrest := ih hb1 he1 (List.append_cancel_left hcs) h2 (by omega)
    exact List.forall_mem_cons.mpr ⟨⟨ds, rfl⟩, hrest⟩

/-! ## Reads that end where characters end -/

/-- The characters one after the other. -/
def receiveAll (isPrintable : ℤ → Bool) : List Char → NHandle → Result (NHandle×List Str)
  | [], h => return (h, [])
  | c::cs, h => do
    let (h, lines) ← receive isPrintable (rune c) h
    let (h, rest) ← receiveAll isPrintable cs h
    return (h, lines ++ rest)

theorem deleteBack_ok {tl : Str} {l : Byte} {rest : List Byte} (hl : ¬IsCont l)
    (htl : ∀ b ∈ tl, IsCont b) : deleteBack (tl ++ l::rest) = .ok rest := by
  induction tl with
  | nil => exact if_neg (mt (cont_mask l).mp hl)
  | cons b tl ih =>
    rw [List.cons_append, deleteBack, if_pos ((cont_mask b).mpr (htl b List.mem_cons_self))]
    exact ih fun b hb => htl b (List.mem_cons_of_mem _ hb)

theorem streamDeleteUtf_encode (ds : List Char) :
    ∃ es, streamDeleteUtf (encode ds) = .ok (encode es) := by
  cases ds using List.reverseRecOn with
  | nil => exact ⟨[], rfl⟩
  | append_singleton ds c =>
    obtain ⟨l, tl, hl, hlead, htl, -⟩ := utf8_shape c
    refine ⟨ds, ?_⟩
    rw [encode_append, encode_singleton, hl, streamDeleteUtf, if_neg (by simp),
      List.reverse_append, List.reverse_cons, List.append_assoc, List.singleton_append,
      deleteBack_ok hlead fun b hb => htl b (List.mem_reverse.mp hb)]
    exact congrArg Except.ok (List.reverse_reverse _)

variable (isPrintable) in
theorem receive_ok (c : Char) {h : NHandle} {ds : List Char} (hd : h.input = encode ds) :
    ∃ h' lines es, receive isPrintable (rune c) h = .ok (h', lines) ∧ h'.input = encode es := by
  have ht : ∃ es lines, receiveText isPrintable (rune c) h = .ok (encode es, lines) := by
    unfold receiveText
    split
    · refine ⟨ds ++ [c], [], ?_⟩
      rw [streamAddUtf, putUtf_char, hd, encode_append, encode_singleton]
      rfl
    · split
      · obtain ⟨es, he⟩ := streamDeleteUtf_encode ds
        rw [hd, he]
        exact ⟨es, [], rfl⟩
      · split
        · exact ⟨[], [h.input], rfl⟩
        · exact ⟨ds, [], by rw [hd]; rfl⟩
  obtain ⟨es, lines, ht⟩ := ht
  refine ⟨{ h with input := encode es, lastInputWasCR := rune c = 13 }, lines, es, ?_, rfl⟩
  rw [receive, ht]
  rfl

variable (isPrintable) in
theorem receiveAll_ok (cs : List Char) {h : NHandle} {ds : List Char} (hd : h.input = encode ds) :
    ∃ r, receiveAll isPrintable cs h = .ok r := by
  induction cs generalizing h ds with
  | nil => exact ⟨_, rfl⟩
  | cons c cs ih =>
    obtain ⟨h', lines, es, hr, hes⟩ := receive_ok isPrintable c hd
    obtain ⟨⟨h'', rest⟩, hrest⟩ := ih hes
    exact ⟨(h'', lines ++ rest), bind_ok.mpr ⟨_, hr, bind_ok.mpr ⟨_, hrest, rfl⟩⟩⟩

theorem receiveAll_keeps {cs : List Char} {h h' : NHandle} {lines : List Str}
    (hr : receiveAll isPrintable cs h = .ok (h', lines)) :
    h'.binary = h.binary ∧ h'.excessUtf = h.excessUtf := by
  induction cs generalizing h lines with
  | nil =>
    obtain ⟨rfl, rfl⟩ := Prod.mk.inj (Except.ok.inj hr)
    exact ⟨rfl, rfl⟩
  | cons c cs ih =>
    obtain ⟨⟨h1, l1⟩, hr1, hr⟩ := bind_ok.mp hr
    obtain ⟨⟨h2, l2⟩, hr2, hr⟩ := bind_ok.mp hr
    obtain ⟨rfl, rfl⟩ := Prod.mk.inj (Except.ok.inj hr)
    obtain ⟨hb1, he1⟩ := receive_keeps hr1
    obtain ⟨hb2, he2⟩ := ih hr2
    exact ⟨hb2.trans hb1, he2.trans he1⟩

theorem receiveAll_split {cs ds : List Char} {h h2 : NHandle} {lines : List Str}
    (hr : receiveAll isPrintable (cs ++ ds) h = .ok (h2, lines)) :
    ∃ h1 l1 l2, receiveAll isPrintable cs h = .ok (h1, l1) ∧
      receiveAll isPrintable ds h1 = .ok (h2, l2) ∧ lines = l1 ++ l2 := by
  induction cs generalizing h lines with
  | nil => exact ⟨h, [], lines, rfl, hr, rfl⟩
  | cons c cs ih =>
    obtain ⟨⟨h1, l1⟩, hr1, hr⟩ := bind_ok.mp hr
    obtain ⟨⟨h3, l3⟩, hr3, hr⟩ := bind_ok.mp hr
    obtain ⟨rfl, rfl⟩ := Prod.mk.inj (Except.ok.inj hr)
    obtain ⟨h4, l4, l5, hc, hd, rfl⟩ := ih hr3
    refine ⟨h4, l1 ++ l4, l5, bind_ok.mpr ⟨_, hr1, bind_ok.mpr ⟨_, hc, rfl⟩⟩, hd, ?_⟩
    rw [List.append_assoc]

theorem pullLoop_encode {fuel : ℕ} {cs : List Char} {h h' : NHandle} {lines : List Str}
    (hf : cs.length < fuel) (he : h.excessUtf = [])
    (hr : receiveAll isPrintable cs h = .ok (h', lines)) :
    pullLoop isPrintable fuel (encode cs) (encode cs).length h = .ok ⟨h', lines, encode cs⟩ := by
  induction cs generalizing fuel h lines with
  | nil =>
    obtain ⟨rfl, rfl⟩ := Prod.mk.inj (Except.ok.inj hr)
    cases fuel with
    | zero => cases hf
    | succ fuel =>
      have hsame : { h with excessUtf := [] } = h := by rw [← he]
      change Except.ok (⟨{ h with excessUtf := [] }, [], []⟩ : Pulled) = _
      rw [hsame]
      rfl
  | cons c cs ih =>
    obtain ⟨⟨h1, l1⟩, hr1, hr⟩ := bind_ok.mp hr
    obtain ⟨⟨h2, l2⟩, hr2, hr⟩ := bind_ok.mp hr
    obtain ⟨rfl, rfl⟩ := Prod.mk.inj (Except.ok.inj hr)
    cases fuel with
    | zero => cases hf
    | succ fuel =>
      obtain ⟨l, tl, hl, -⟩ := utf8_shape c
      have hloop := ih (Nat.lt_of_succ_lt_succ hf) ((receive_keeps hr1).2.trans he) hr2
      have hg : getUtf (l::(tl ++ encode cs)) = some (rune c, encode cs) := by
        rw [← List.cons_append, ← hl]
        exact getUtf_char c (encode cs)
      have hlen : (tl ++ encode cs).length+1-(encode cs).length = tl.length+1 := by
        rw [List.length_append]
        omega
      have hleft : (tl ++ encode cs).length+1-(tl.length+1) = (encode cs).length := by
        rw [List.length_append]
        omega
      have hc : 0 < (tl ++ encode cs).length+1 ∧
          clearanceUtf l ≤ (tl ++ encode cs).length+1 := by
        rw [clearanceUtf_char c hl, List.length_append]
        omega
      rw [encode_cons, hl, List.cons_append, pullLoop, List.length_cons, if_pos hc, hg]
      refine bind_ok.mpr ⟨_, hr1, ?_⟩
      rw [hlen, hleft]
      refine bind_ok.mpr ⟨_, hloop, ?_⟩
      rw [List.take_succ_cons, List.take_left]
      rfl

theorem pullInput_encode {cs : List Char} {h h' : NHandle} {lines : List Str}
    (hb : h.binary = false) (he : h.excessUtf = [])
    (hr : receiveAll isPrintable cs h = .ok (h', lines)) :
    pullInput isPrintable h (encode cs) = .ok ⟨h', lines, encode cs⟩ := by
  have hlen := length_le_encode cs
  simp only [pullInput, hb, he, Bool.false_eq_true, if_false, List.nil_append]
  by_cases h0 : (encode cs).length = 0
  · obtain rfl : cs = [] := List.eq_nil_of_length_eq_zero (by omega)
    obtain ⟨rfl, rfl⟩ := Prod.mk.inj (Except.ok.inj hr)
    rfl
  · rw [if_neg h0]
    exact pullLoop_encode (by omega) he hr

theorem pullAll_encode {css : List (List Char)} {h h' : NHandle} {lines : List Str}
    (hb : h.binary = false) (he : h.excessUtf = [])
    (hr : receiveAll isPrintable css.flatten h = .ok (h', lines)) :
    pullAll isPrintable h (css.map encode) = .ok ⟨h', lines, encode css.flatten⟩ := by
  induction css generalizing h lines with
  | nil =>
    obtain ⟨rfl, rfl⟩ := Prod.mk.inj (Except.ok.inj hr)
    rfl
  | cons cs css ih =>
    obtain ⟨h1, l1, l2, hc, hd, rfl⟩ := receiveAll_split hr
    have hk := receiveAll_keeps hc
    have hrest := ih (hk.1.trans hb) (hk.2.trans he) hd
    refine bind_ok.mpr ⟨_, pullInput_encode hb he hc, bind_ok.mpr ⟨_, hrest, ?_⟩⟩
    rw [List.flatten_cons, encode_append]
    rfl

end Reads

theorem encode_flatten (css : List (List Char)) :
    (css.map encode).flatten = encode css.flatten := by
  induction css with
  | nil => rfl
  | cons cs css ih => rw [List.map_cons, List.flatten_cons, List.flatten_cons, encode_append, ih]

theorem exists_encoded {chunks : List Str} (h : ∀ chunk ∈ chunks, ∃ ds, chunk = encode ds) :
    ∃ css : List (List Char), chunks = css.map encode := by
  induction chunks with
  | nil => exact ⟨[], rfl⟩
  | cons chunk chunks ih =>
    obtain ⟨⟨ds, rfl⟩, hrest⟩ := List.forall_mem_cons.mp h
    obtain ⟨css, rfl⟩ := ih hrest
    exact ⟨ds::css, rfl⟩

/-- Reads give the lines and the pending partial line that the characters give one at a time, and
every byte is processed once. -/
def Intact (isPrintable : ℤ → Bool) (chunks : List Str) (cs : List Char) : Prop :=
  ∃ r, pullAll isPrintable newNhandle chunks = .ok r ∧
    pullAll isPrintable newNhandle (cs.map String.utf8EncodeChar) = .ok r ∧
    r.taken = chunks.flatten ∧ r.handle.excessUtf = []

/-- However well-formed bytes are split, they arrive as they are if and only if no read ends within
a character. -/
theorem pull_input_iff (isPrintable : ℤ → Bool) {chunks : List Str} {cs : List Char}
    (h : chunks.flatten = encode cs) :
    Intact isPrintable chunks cs ↔ ∀ chunk ∈ chunks, ∃ ds, chunk = encode ds := by
  constructor
  · rintro ⟨r, hr, -, ht, -⟩
    exact pullAll_whole rfl rfl h hr (congrArg List.length ht)
  · intro hds
    obtain ⟨css, rfl⟩ := exists_encoded hds
    rw [encode_flatten] at h
    obtain rfl := encode_inj h
    have hnew : newNhandle.input = encode [] := rfl
    obtain ⟨⟨h', lines⟩, hr⟩ := receiveAll_ok isPrintable css.flatten hnew
    have hsingle : css.flatten.map String.utf8EncodeChar =
        (css.flatten.map fun c => [c]).map encode := by
      rw [List.map_map]
      exact List.map_congr_left fun c _ => (encode_singleton c).symm
    have hflat : (css.flatten.map fun c => [c]).flatten = css.flatten := by
      rw [← List.flatMap_def, List.flatMap_singleton']
    refine ⟨_, pullAll_encode rfl rfl hr, ?_, (encode_flatten css).symm, (receiveAll_keeps hr).2⟩
    rw [hsingle, pullAll_encode rfl rfl (hflat.symm ▸ hr), hflat]

/-- The characters of a string, one read for each two bytes. -/
theorem pull_input_iff_pairs :
    Intact (fun c => 32 ≤ c) [[0xc3, 0xa9], [0xc3, 0xa9]] ['é', 'é'] ↔
      ∀ chunk ∈ [[0xc3, 0xa9], [0xc3, 0xa9]], ∃ ds, chunk = encode ds :=
  pull_input_iff _ rfl

/-- A letter and an ASCII letter, the first read ending within the first: the second is lost. -/
theorem pull_input_drops : ¬Intact (fun c => 32 ≤ c) [[0xc3], [0xa9, 0x61]] ['é', 'a'] := by
  rintro ⟨r, hr, hs, -⟩
  have heq : pullAll (fun c => decide (32 ≤ c)) newNhandle [[0xc3], [0xa9, 0x61]] =
      pullAll (fun c => decide (32 ≤ c)) newNhandle (['é', 'a'].map String.utf8EncodeChar) :=
    hr.trans hs.symm
  revert heq
  decide

end LambdaMoo.NetInput
