import LambdaMoo.Values

/-!
# The words of a line

`parse_into_words` writes the words of a line over the line itself: the text it
still has to read begins at or behind the place it writes to, so the words are
those of the line as it was.
-/

set_option autoImplicit false

namespace LambdaMoo.Words

/-- The buffer with its two pointers, and each write as it was made, with the
position that `input` had then. -/
structure Scan where
  buf : Str
  input : ℕ
  ptr : ℕ
  inQuotes : Bool
  writes : List (ℕ×ℕ)
  deriving DecidableEq, Repr

namespace Scan

def peek (s : Scan) : Result Byte :=
  match s.buf[s.input]? with
  | some c => .ok c
  | none => .error (.undefined "byte behind a buffer")

def next (s : Scan) : Scan := { s with input := s.input+1 }

def put (s : Scan) (c : Byte) : Result Scan :=
  if s.ptr < s.buf.length then
    .ok { s with
      buf := s.buf.set s.ptr c
      ptr := s.ptr+1
      writes := (s.ptr, s.input)::s.writes }
  else .error (.undefined "write behind a buffer")

def skipSpaces : ℕ → Scan → Result Scan
  | 0, _ => .error .outOfFuel
  | fuel+1, s => do
    if (← s.peek) = 32 then skipSpaces fuel s.next else return s

/-- The loop over the characters of one word. -/
def word : ℕ → Scan → Result Scan
  | 0, _ => .error .outOfFuel
  | fuel+1, s => do
    let c ← s.peek
    if c ≠ 0 ∧ (s.inQuotes ∨ c ≠ 32) then
      let s := s.next
      if c = 34 then word fuel { s with inQuotes := !s.inQuotes }
      else if c = 92 then
        let d ← s.peek
        if d ≠ 0 then word fuel (← s.put d).next else word fuel s
      else word fuel (← s.put c)
    else return s

/-- The loop over the words, with the pointers it stores. -/
def loop : ℕ → Scan → Result (Scan×List ℕ)
  | 0, _ => .error .outOfFuel
  | fuel+1, s => do
    if (← s.peek) = 0 then return (s, [])
    else
      let t ← word (s.buf.length+1) s
      let t ← skipSpaces (s.buf.length+1) t
      let (u, words) ← loop fuel (← t.put 0)
      return (u, s.ptr::words)

end Scan

def stringAt (buf : Str) (p : ℕ) : Str := (buf.drop p).takeWhile (· ≠ 0)

/-- The buffer at the end, and the pointers into it. -/
structure Parsed where
  scan : Scan
  words : List ℕ
  deriving DecidableEq, Repr

def Parsed.argv (r : Parsed) : List Str := r.words.map (stringAt r.scan.buf)

def parseIntoWords (input : Str) : Result Parsed := do
  let s : Scan := ⟨input ++ [0], 0, 0, false, []⟩
  let (t, words) ← Scan.loop (s.buf.length+1) (← Scan.skipSpaces (s.buf.length+1) s)
  return ⟨t, words⟩

/-- The first word of a line and what follows it. -/
def word : Bool → Str → Str×Str
  | _, [] => ([], [])
  | q, c::s =>
    if q = false ∧ c = 32 then ([], c::s)
    else if c = 34 then word (!q) s
    else if c = 92 then
      match s with
      | [] => ([], [])
      | d::s => (d::(word q s).1, (word q s).2)
    else (c::(word q s).1, (word q s).2)

def dropSpaces (s : Str) : Str := s.dropWhile (· = 32)

theorem word_cons (q : Bool) (c : Byte) (s : Str) : word q (c::s) =
    if q = false ∧ c = 32 then ([], c::s)
    else if c = 34 then word (!q) s
    else if c = 92 then
      match s with
      | [] => ([], [])
      | d::s => (d::(word q s).1, (word q s).2)
    else (c::(word q s).1, (word q s).2) := by
  rw [word.eq_def]
  rfl

theorem word_stop (s : Str) : word false (32::s) = ([], 32::s) := by
  rw [word_cons, if_pos ⟨rfl, rfl⟩]

theorem word_quote (q : Bool) (s : Str) : word q (34::s) = word (!q) s := by
  rw [word_cons, if_neg fun h => absurd h.2 (by decide), if_pos rfl]

theorem word_escape (q : Bool) (d : Byte) (s : Str) :
    word q (92::d::s) = (d::(word q s).1, (word q s).2) := by
  rw [word_cons, if_neg fun h => absurd h.2 (by decide), if_neg (by decide), if_pos rfl]

theorem word_trailing (q : Bool) : word q [92] = ([], []) := by
  rw [word_cons, if_neg fun h => absurd h.2 (by decide), if_neg (by decide), if_pos rfl]

theorem word_plain {q : Bool} {c : Byte} (hs : ¬(q = false ∧ c = 32)) (hq : c ≠ 34) (hb : c ≠ 92)
    (s : Str) : word q (c::s) = (c::(word q s).1, (word q s).2) := by
  rw [word_cons, if_neg hs, if_neg hq, if_neg hb]

theorem word_rest_le (q : Bool) (s : Str) : (word q s).2.length ≤ s.length := by
  fun_induction word q s with
  | case1 => exact le_rfl
  | case2 => exact le_rfl
  | case3 q s _ ih => exact Nat.le_succ_of_le ih
  | case4 => exact Nat.zero_le _
  | case5 q _ _ d s ih => exact Nat.le_succ_of_le (Nat.le_succ_of_le ih)
  | case6 q c s _ _ _ ih => exact Nat.le_succ_of_le ih

theorem word_rest_lt {c : Byte} (hc : c ≠ 32) (s : Str) :
    (word false (c::s)).2.length < (c::s).length := by
  by_cases hq : c = 34
  · rw [hq, word_quote]
    exact Nat.lt_succ_of_le (word_rest_le _ _)
  · by_cases hb : c = 92
    · cases s with
      | nil =>
        rw [hb, word_trailing]
        exact Nat.succ_pos _
      | cons d s =>
        rw [hb, word_escape]
        exact Nat.lt_succ_of_le (Nat.le_succ_of_le (word_rest_le _ s))
    · rw [word_plain (by simp [hc]) hq hb]
      exact Nat.lt_succ_of_le (word_rest_le _ s)

/-- A word ends at a space or at the end of the line. -/
theorem word_rest (q : Bool) (s : Str) : (word q s).2 = [] ∨ ∃ t, (word q s).2 = 32::t := by
  fun_induction word q s with
  | case1 => exact Or.inl rfl
  | case2 q c s h => exact Or.inr ⟨s, by rw [h.2]⟩
  | case3 q s _ ih => exact ih
  | case4 => exact Or.inl rfl
  | case5 q _ _ d s ih => exact ih
  | case6 q c s _ _ _ ih => exact ih

theorem word_mem {q : Bool} {s : Str} {b : Byte} (h : b ∈ (word q s).1 ∨ b ∈ (word q s).2) :
    b ∈ s := by
  fun_induction word q s with
  | case1 => exact h.elim id id
  | case2 q c s _ => exact h.resolve_left List.not_mem_nil
  | case3 q s _ ih => exact List.mem_cons_of_mem _ (ih h)
  | case4 => exact (h.elim List.not_mem_nil List.not_mem_nil).elim
  | case5 q _ _ d s ih =>
    apply List.mem_cons_of_mem
    rcases h with h | h
    · rcases List.mem_cons.mp h with h | h
      · exact h ▸ List.mem_cons_self
      · exact List.mem_cons_of_mem _ (ih (Or.inl h))
    · exact List.mem_cons_of_mem _ (ih (Or.inr h))
  | case6 q c s _ _ _ ih =>
    rcases h with h | h
    · rcases List.mem_cons.mp h with h | h
      · exact h ▸ List.mem_cons_self
      · exact List.mem_cons_of_mem _ (ih (Or.inl h))
    · exact List.mem_cons_of_mem _ (ih (Or.inr h))

theorem dropSpaces_length (s : Str) : (dropSpaces s).length ≤ s.length :=
  (List.dropWhile_sublist _).length_le

theorem dropSpaces_head {s t : Str} {c : Byte} (h : dropSpaces s = c::t) : c ≠ 32 := by
  have hd := List.head?_dropWhile_not (· = (32 : Byte)) s
  rw [← dropSpaces, h] at hd
  simpa using hd

theorem dropSpaces_eq_self {c : Byte} (hc : c ≠ 32) (s : Str) : dropSpaces (c::s) = c::s :=
  List.dropWhile_cons_of_neg (by simpa using hc)

theorem dropSpaces_dropSpaces (s : Str) : dropSpaces (dropSpaces s) = dropSpaces s := by
  cases h : dropSpaces s with
  | nil => rfl
  | cons c t => exact dropSpaces_eq_self (dropSpaces_head h) t

/-- The words of a line. -/
def words (s : Str) : List Str :=
  match _h : dropSpaces s with
  | [] => []
  | c::t => (word false (c::t)).1::words (word false (c::t)).2
termination_by s.length
decreasing_by
  have hl := dropSpaces_length s
  rw [_h] at hl
  exact Nat.lt_of_lt_of_le (word_rest_lt (dropSpaces_head _h) t) hl

theorem words_nil {s : Str} (h : dropSpaces s = []) : words s = [] := by
  rw [words]
  split
  · rfl
  · next c t hc => exact absurd (h.symm.trans hc) (List.cons_ne_nil c t).symm

theorem words_cons {s t : Str} {c : Byte} (h : dropSpaces s = c::t) :
    words s = (word false (c::t)).1::words (word false (c::t)).2 := by
  rw [words]
  split
  · next hn => exact absurd (h.symm.trans hn) (List.cons_ne_nil c t)
  · next d u hd =>
    cases h.symm.trans hd
    rfl

theorem words_dropSpaces (s : Str) : words (dropSpaces s) = words s := by
  cases h : dropSpaces s with
  | nil => rw [words_nil h, words_nil (s := []) rfl]
  | cons c t => rw [words_cons h, words_cons (dropSpaces_eq_self (dropSpaces_head h) t)]

theorem words_mem {s w : Str} (hw : w ∈ words s) : ∀ b ∈ w, b ∈ s := by
  fun_induction words s with
  | case1 => exact absurd hw List.not_mem_nil
  | case2 s c t h ih =>
    have hs : ∀ b ∈ c::t, b ∈ s := by
      intro b hb
      rw [← h] at hb
      exact (List.dropWhile_sublist _).subset hb
    intro b hb
    rcases List.mem_cons.mp hw with hw | hw
    · exact hs b (word_mem (Or.inl (hw ▸ hb)))
    · exact hs b (word_mem (Or.inr (ih hw b hb)))

/-- Every write so far was at or before the place of the next character to read. -/
def Behind (ws : List (ℕ×ℕ)) : Prop := ∀ e ∈ ws, e.1 ≤ e.2

theorem Behind.cons {e : ℕ×ℕ} {ws : List (ℕ×ℕ)} (he : e.1 ≤ e.2) (hb : Behind ws) :
    Behind (e::ws) := List.forall_mem_cons.mpr ⟨he, hb⟩

namespace Scan

/-- The state in which `done` is written, `rest` still to be read, and `gap` neither. -/
def overlay (done gap rest : Str) (q : Bool) (ws : List (ℕ×ℕ)) : Scan :=
  ⟨done ++ gap ++ rest, done.length+gap.length, done.length, q, ws⟩

section Over
variable (done gap rest : Str) (q : Bool) (ws : List (ℕ×ℕ))

theorem overlay_peek (c : Byte) : (overlay done gap (c::rest) q ws).peek = .ok c := by
  have h : (done ++ gap ++ c::rest)[done.length+gap.length]? = some c := by
    rw [← List.length_append, List.getElem?_append_right le_rfl, Nat.sub_self]
    rfl
  simp only [overlay, peek, h]

theorem overlay_next (c : Byte) : (overlay done gap (c::rest) q ws).next = overlay done (gap ++ [c]) rest q ws := by
  simp [overlay, next, Nat.add_assoc]

theorem overlay_put (g c : Byte) : ∃ e : ℕ×ℕ, e.1 ≤ e.2 ∧
    (overlay done (g::gap) rest q ws).put c = .ok (overlay (done ++ [c]) gap rest q (e::ws)) := by
  refine ⟨(done.length, done.length+(g::gap).length), Nat.le_add_right _ _, ?_⟩
  rw [put, if_pos (by simp [overlay])]
  simp only [overlay, List.append_assoc, List.set_append_right _ _ le_rfl, Nat.sub_self,
    List.cons_append, List.set_cons_zero, List.nil_append, List.length_append, List.length_cons,
    List.length_nil]
  congr 2
  omega

end Over

theorem skipSpaces_eq (done : Str) : ∀ (fuel : ℕ) (gap s : Str) (q : Bool) (ws : List (ℕ×ℕ)),
    s.length < fuel → ∃ gap', skipSpaces fuel (overlay done gap (s ++ [0]) q ws) =
      .ok (overlay done gap' (dropSpaces s ++ [0]) q ws) ∧ gap'.length+(dropSpaces s).length =
        gap.length+s.length := by
  intro fuel
  induction fuel with
  | zero => intro _ s _ _ h; exact absurd h (Nat.not_lt_zero _)
  | succ fuel ih =>
    intro gap s q ws hf
    cases s with
    | nil => exact ⟨gap, by rw [skipSpaces, List.nil_append, overlay_peek]; rfl, rfl⟩
    | cons c s =>
      by_cases hc : c = 32
      · obtain ⟨gap', he, hl⟩ := ih (gap ++ [c]) s q ws (Nat.lt_of_succ_lt_succ hf)
        refine ⟨gap', ?_, ?_⟩
        · rw [skipSpaces, List.cons_append, overlay_peek]
          simp only [bind, Except.bind, if_pos hc, overlay_next, he]
          rw [dropSpaces, dropSpaces, List.dropWhile_cons_of_pos (by simpa using hc)]
        · rw [dropSpaces, List.dropWhile_cons_of_pos (by simpa using hc), ← dropSpaces, hl]
          rw [List.length_append, List.length_singleton, List.length_cons, Nat.add_assoc, Nat.add_comm 1]
      · refine ⟨gap, ?_, ?_⟩
        · rw [skipSpaces, List.cons_append, overlay_peek]
          simp only [bind, Except.bind, if_neg hc, dropSpaces_eq_self hc]
          rfl
        · rw [dropSpaces_eq_self hc]

theorem cons_of_snoc (gap : Str) (c : Byte) : ∃ g gs, gap ++ [c] = g::gs :=
  List.exists_cons_of_ne_nil (List.append_ne_nil_of_right_ne_nil gap (List.cons_ne_nil c []))

theorem word_eq : ∀ (fuel : ℕ) (done gap s : Str) (q : Bool) (ws : List (ℕ×ℕ)),
    s.length < fuel → 0 ∉ s → Behind ws → ∃ gap' q' ws', Behind ws' ∧
      word fuel (overlay done gap (s ++ [0]) q ws) = .ok (overlay (done ++ (Words.word q s).1) gap'
        ((Words.word q s).2 ++ [0]) q' ws') ∧ ((Words.word q s).2 ≠ [] → q' = false) ∧
      (Words.word q s).1.length+gap'.length+(Words.word q s).2.length = gap.length+s.length := by
  intro fuel
  induction fuel with
  | zero => intro _ _ s _ _ h; exact absurd h (Nat.not_lt_zero _)
  | succ fuel ih =>
    intro done gap s q ws hf h0 hb
    cases s with
    | nil =>
      refine ⟨gap, q, ws, hb, ?_, fun h => absurd rfl h, by simp [Words.word]⟩
      rw [word, List.nil_append, overlay_peek]
      simp only [bind, Except.bind, ne_eq, not_true_eq_false, false_and, if_false]
      simp [Words.word, pure, Except.pure]
    | cons c s =>
      have hc : c ≠ 0 := fun h => h0 (h ▸ List.mem_cons_self)
      have hs : 0 ∉ s := fun h => h0 (List.mem_cons_of_mem c h)
      have hl : s.length < fuel := Nat.lt_of_succ_lt_succ hf
      rw [word, List.cons_append, overlay_peek]
      simp only [bind, Except.bind, overlay_next]
      by_cases hstop : q = false ∧ c = 32
      · obtain ⟨rfl, rfl⟩ := hstop
        refine ⟨gap, false, ws, hb, ?_, fun _ => rfl, by simp [word_stop]⟩
        rw [if_neg (by simp [overlay]), word_stop, List.append_nil]
        rfl
      · have hgo : c ≠ 0 ∧ ((overlay done gap (c::(s ++ [0])) q ws).inQuotes ∨ c ≠ 32) := by
          refine ⟨hc, ?_⟩
          cases q with
          | false => exact Or.inr fun h => hstop ⟨rfl, h⟩
          | true => exact Or.inl rfl
        rw [if_pos hgo]
        by_cases hq : c = 34
        · rw [if_pos hq, hq, word_quote]
          obtain ⟨gap', q', ws', hb', he, hq', hn⟩ := ih done (gap ++ [34]) s (!q) ws hl hs hb
          refine ⟨gap', q', ws', hb', he, hq', hn.trans ?_⟩
          rw [List.length_append, List.length_singleton, List.length_cons, Nat.add_assoc,
            Nat.add_comm 1]
        · rw [if_neg hq]
          by_cases hbs : c = 92
          · rw [if_pos hbs, hbs]
            cases s with
            | nil =>
              obtain ⟨gap', q', ws', hb', he, -, hn⟩ := ih done (gap ++ [92]) [] q ws hl hs hb
              refine ⟨gap', q', ws', hb', ?_, fun h => absurd (by rw [word_trailing]) h, ?_⟩
              · rw [List.nil_append, overlay_peek]
                simp only [ne_eq, not_true_eq_false, if_false]
                rw [word_trailing]
                exact he
              · rw [word_trailing]
                simpa [Words.word] using hn
            | cons d s =>
              have hd : d ≠ 0 := fun h => hs (h ▸ List.mem_cons_self)
              obtain ⟨g, gs, hg⟩ := cons_of_snoc gap 92
              rw [hg, List.cons_append, overlay_peek]
              simp only [ne_eq, hd, not_false_eq_true, if_true]
              obtain ⟨e, he, hput⟩ := overlay_put done gs (d::(s ++ [0])) q ws g d
              rw [hput, word_escape]
              simp only [overlay_next]
              obtain ⟨gap', q', ws', hb', hw, hq', hn⟩ := ih (done ++ [d]) (gs ++ [d]) s q (e::ws)
                (Nat.lt_of_succ_lt hl) (fun h => hs (List.mem_cons_of_mem d h))
                (hb.cons he)
              rw [List.append_assoc, List.singleton_append] at hw
              refine ⟨gap', q', ws', hb', hw, hq', ?_⟩
              have hg := congrArg List.length hg
              simp only [List.length_append, List.length_cons, List.length_nil] at hg hn ⊢
              omega
          · rw [if_neg hbs]
            obtain ⟨g, gs, hg⟩ := cons_of_snoc gap c
            obtain ⟨e, he, hput⟩ := overlay_put done gs (s ++ [0]) q ws g c
            rw [hg, hput, word_plain hstop hq hbs]
            obtain ⟨gap', q', ws', hb', hw, hq', hn⟩ := ih (done ++ [c]) gs s q (e::ws) hl hs
              (hb.cons he)
            rw [List.append_assoc, List.singleton_append] at hw
            refine ⟨gap', q', ws', hb', hw, hq', ?_⟩
            have hg := congrArg List.length hg
            simp only [List.length_append, List.length_cons, List.length_nil] at hg hn ⊢
            omega

/-- The words in a row, each with its NUL. -/
def layout (ws : List Str) : Str := ws.flatMap (· ++ [0])

def starts : ℕ → List Str → List ℕ
  | _, [] => []
  | p, w::ws => p::starts (p+(w.length+1)) ws

/-- The last NUL may be written over the one the line ends with. -/
theorem overlay_put_last (done : Str) (q : Bool) (ws : List (ℕ×ℕ)) :
    (overlay done [] [0] q ws).put 0 = .ok ⟨done ++ [0], done.length, done.length+1, q,
      (done.length, done.length)::ws⟩ := by
  rw [put, if_pos (by simp [overlay])]
  simp [overlay]

theorem loop_last (fuel : ℕ) (done : Str) (q : Bool) (ws : List (ℕ×ℕ)) :
    loop (fuel+1) ⟨done ++ [0], done.length, done.length+1, q, ws⟩ =
      .ok (⟨done ++ [0], done.length, done.length+1, q, ws⟩, []) := by
  have h : (done ++ [(0 : Byte)])[done.length]? = some 0 := by simp
  rw [loop, peek]
  simp only [h]
  rfl

theorem loop_eq : ∀ (fuel : ℕ) (done gap s : Str) (q : Bool) (ws : List (ℕ×ℕ)),
    s.length < fuel → 0 ∉ s → (s ≠ [] → q = false) → dropSpaces s = s → Behind ws →
    ∃ u tail, loop fuel (overlay done gap (s ++ [0]) q ws) = .ok (u, starts done.length (words s)) ∧
      Behind u.writes ∧ u.buf = done ++ layout (words s) ++ tail ∧
      u.buf.length = done.length+gap.length+s.length+1 := by
  intro fuel
  induction fuel with
  | zero => intro _ _ s _ _ h; exact absurd h (Nat.not_lt_zero _)
  | succ fuel ih =>
    intro done gap s q ws hf h0 hq hd hb
    cases s with
    | nil =>
      refine ⟨overlay done gap [0] q ws, gap ++ [0], ?_, hb, ?_, ?_⟩
      · rw [loop, List.nil_append, overlay_peek, words_nil rfl]
        rfl
      · rw [words_nil rfl, overlay]
        simp [layout]
      · simp [overlay, Nat.add_assoc]
    | cons c s =>
      have hc : c ≠ 0 := fun h => h0 (h ▸ List.mem_cons_self)
      have hc32 : c ≠ 32 := dropSpaces_head hd
      obtain rfl : q = false := hq (List.cons_ne_nil c s)
      have hbl : (overlay done gap (c::s ++ [0]) false ws).buf.length+1 =
          done.length+gap.length+(s.length+1)+1+1 := by simp [overlay, Nat.add_assoc]
      obtain ⟨gap', q', ws', hb', hw, hq', hn⟩ := word_eq
        ((overlay done gap (c::s ++ [0]) false ws).buf.length+1) done gap (c::s) false ws
        (by rw [hbl, List.length_cons]; omega) h0 hb
      generalize hwr : Words.word false (c::s) = wr at hw hq' hn
      obtain ⟨w, r⟩ := wr
      have hwords : words (c::s) = w::words r := by rw [words_cons hd, hwr]
      have hr0 : 0 ∉ r := fun h => h0 (word_mem (Or.inr (by rw [hwr]; exact h)))
      have hrl : r.length < (c::s).length := by
        have := word_rest_lt hc32 s
        rwa [hwr] at this
      obtain ⟨gap2, hskip, hl2⟩ := skipSpaces_eq (done ++ w)
        ((overlay done gap (c::s ++ [0]) false ws).buf.length+1) gap' r q' ws'
        (by rw [hbl]; simp only [List.length_cons] at hrl; omega)
      have hstep : ∀ t u ps, (overlay (done ++ w) gap2 (dropSpaces r ++ [0]) q' ws').put 0 = .ok t →
          loop fuel t = .ok (u, ps) →
          loop (fuel+1) (overlay done gap (c::s ++ [0]) false ws) = .ok (u, done.length::ps) := by
        intro t u ps hput hloop
        rw [loop, List.cons_append, overlay_peek]
        simp only [bind, Except.bind, if_neg hc]
        rw [← List.cons_append, hw]
        simp only [hskip, hput, hloop]
        rfl
      simp only [List.length_cons] at hn hrl hf ⊢
      cases gap2 with
      | nil =>
        have hr : r = [] := by
          rcases word_rest false (c::s) with h | ⟨t, h⟩ <;> rw [hwr] at h
          · exact h
          · have ht := dropSpaces_length t
            have h : r = 32::t := h
            rw [h, dropSpaces, List.dropWhile_cons_of_pos (by simp), ← dropSpaces] at hl2
            simp only [List.length_nil, List.length_cons] at hl2
            omega
        subst hr
        obtain ⟨fuel, rfl⟩ : ∃ n, fuel = n+1 := ⟨fuel-1, by omega⟩
        have hrun := hstep _ _ _ (overlay_put_last (done ++ w) q' ws') (loop_last fuel _ _ _)
        refine ⟨⟨done ++ w ++ [0], (done ++ w).length, (done ++ w).length+1, q',
          ((done ++ w).length, (done ++ w).length)::ws'⟩, [], ?_, ?_, ?_, ?_⟩
        · rw [hwords, words_nil rfl]
          exact hrun
        · exact hb'.cons le_rfl
        · rw [hwords, words_nil rfl]
          simp [layout]
        · simp only [dropSpaces, List.dropWhile_nil, List.length_nil] at hl2 hn
          simp only [List.length_append, List.length_singleton]
          omega
      | cons g gs =>
        obtain ⟨e, he, hput⟩ := overlay_put (done ++ w) gs (dropSpaces r ++ [0]) q' ws' g 0
        have hdl := dropSpaces_length r
        obtain ⟨u, tail, hloop, hbu, hbuf, hlen⟩ := ih (done ++ w ++ [0]) gs (dropSpaces r) q' (e::ws')
          (by omega) (fun h => hr0 ((List.dropWhile_sublist _).subset h))
          (fun h => hq' fun hr => h (by rw [show r = [] from hr]; rfl)) (dropSpaces_dropSpaces r)
          (hb'.cons he)
        refine ⟨u, tail, (hstep _ _ _ hput hloop).trans ?_, hbu, ?_, ?_⟩
        · rw [hwords, words_dropSpaces, starts]
          simp
        · rw [hbuf, hwords, words_dropSpaces]
          simp [layout]
        · simp only [List.length_append, List.length_cons, List.length_nil] at hlen hl2 hn
          omega

end Scan

theorem stringAt_layout {w : Str} (hw : 0 ∉ w) (pre tail : Str) :
    stringAt (pre ++ (w ++ [0]) ++ tail) pre.length = w := by
  rw [stringAt, List.append_assoc, List.drop_left, List.append_assoc,
    List.takeWhile_append_of_pos fun b hb => by simpa using fun h : b = 0 => hw (h ▸ hb)]
  simp

theorem stringAt_starts {ws : List Str} (hws : ∀ w ∈ ws, 0 ∉ w) (pre tail : Str) :
    (Scan.starts pre.length ws).map (stringAt (pre ++ Scan.layout ws ++ tail)) = ws := by
  induction ws generalizing pre with
  | nil => rfl
  | cons w ws ih =>
    have ih := ih (fun v hv => hws v (List.mem_cons_of_mem w hv)) (pre ++ (w ++ [0]))
    have hl : pre.length+(w.length+1) = (pre ++ (w ++ [0])).length := by simp
    have hb : pre ++ Scan.layout (w::ws) ++ tail = pre ++ (w ++ [0]) ++ Scan.layout ws ++ tail := by
      simp [Scan.layout]
    rw [Scan.starts, List.map_cons, hl, hb, ih, List.append_assoc _ (Scan.layout ws),
      stringAt_layout (hws w List.mem_cons_self)]

/-- The string at `p` ends within the buffer. -/
def Terminated (buf : Str) (p : ℕ) : Prop := buf[p+(stringAt buf p).length]? = some 0

theorem terminated_starts {ws : List Str} (hws : ∀ w ∈ ws, 0 ∉ w) (pre tail : Str) :
    ∀ p ∈ Scan.starts pre.length ws, Terminated (pre ++ Scan.layout ws ++ tail) p := by
  induction ws generalizing pre with
  | nil => exact List.forall_mem_nil _
  | cons w ws ih =>
    have ih := ih (fun v hv => hws v (List.mem_cons_of_mem w hv)) (pre ++ (w ++ [0]))
    have hl : pre.length+(w.length+1) = (pre ++ (w ++ [0])).length := by simp
    have hb : pre ++ Scan.layout (w::ws) ++ tail = pre ++ (w ++ [0]) ++ Scan.layout ws ++ tail := by
      simp [Scan.layout]
    rw [Scan.starts, hl, hb]
    refine List.forall_mem_cons.mpr ⟨?_, ih⟩
    rw [Terminated, List.append_assoc _ (Scan.layout ws),
      stringAt_layout (hws w List.mem_cons_self)]
    simp

/-- The words are written where the line was. -/
theorem parseIntoWords_eq {s : Str} (h0 : 0 ∉ s) : ∃ r, parseIntoWords s = .ok r ∧
    r.argv = words s ∧ Behind r.scan.writes ∧ (∀ p ∈ r.words, Terminated r.scan.buf p) ∧
    r.scan.buf.length = s.length+1 := by
  have hws : ∀ w ∈ words s, 0 ∉ w := fun w hw h => h0 (words_mem hw 0 h)
  obtain ⟨gap, hskip, hl⟩ := Scan.skipSpaces_eq [] ((s ++ [0]).length+1) [] s false []
    (by rw [List.length_append]; omega)
  obtain ⟨u, tail, hloop, hb, hbuf, hlen⟩ := Scan.loop_eq ((s ++ [0]).length+1) [] gap (dropSpaces s)
    false [] (by have := dropSpaces_length s; rw [List.length_append]; omega)
    (fun h => h0 ((List.dropWhile_sublist _).subset h)) (fun _ => rfl) (dropSpaces_dropSpaces s)
    (List.forall_mem_nil _)
  rw [words_dropSpaces] at hloop hbuf
  refine ⟨⟨u, Scan.starts 0 (words s)⟩, ?_, ?_, hb, ?_, ?_⟩
  · have hs : (⟨s ++ [0], 0, 0, false, []⟩ : Scan) = Scan.overlay [] [] (s ++ [0]) false [] := by
      simp [Scan.overlay]
    rw [parseIntoWords, hs]
    simp only [bind, Except.bind]
    rw [show (Scan.overlay [] [] (s ++ [0]) false []).buf.length = (s ++ [0]).length by
      simp [Scan.overlay], hskip]
    simp only [hloop]
    rfl
  · exact (congrArg (fun b => (Scan.starts 0 (words s)).map (stringAt b)) hbuf).trans
      (stringAt_starts hws [] tail)
  · rw [hbuf]
    exact terminated_starts hws [] tail
  · simp only [List.length_nil, Nat.zero_add] at hlen hl
    exact hlen.trans (congrArg (·+1) hl)

end LambdaMoo.Words
