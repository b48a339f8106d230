import LambdaMoo.Lexemes

/-!
# Cutting a text between two lexemes

A comment is put where the lexer stops between two lexemes. What the lexer reads
before it does not depend on whether the text goes on or the comment begins
there, since no token goes on with a slash.
-/

set_option autoImplicit false

namespace LambdaMoo.Lexemes
open LambdaMoo.Utf LambdaMoo.DbIo LambdaMoo.Parse

/-- The beginning of a comment. -/
def Opens (cut : Runes) : Prop := ∃ r, cut = rune '/'::rune '*'::r

/-- What is read before `post` is read in the same way before a comment. -/
def Local {α : Type} (f : Runes → α × Runes) : Prop :=
  ∀ ⦃w post cut v : Runes⦄, Opens cut → post ≠ [] → (f (w ++ post)).2 = v ++ post →
    f (w ++ cut) = ((f (w ++ post)).1, v ++ cut)

theorem suffix_split {r v post w : Runes} (hr : r <:+ w ++ post) (hv : v ++ post <:+ r) :
    ∃ q, r = q ++ post ∧ q <:+ w ∧ v <:+ q := by
  obtain ⟨a, ha⟩ := hr
  obtain ⟨b, hb⟩ := hv
  have hw : a ++ (b ++ v) ++ post = w ++ post := by
    rw [← ha, ← hb]
    simp
  exact ⟨b ++ v, by rw [← hb, List.append_assoc], ⟨a, List.append_cancel_right hw⟩,
    List.suffix_append b v⟩

/-- What takes a character of `post` does not end before `post`. -/
theorem not_past {v post r : Runes} (hp : post ≠ []) (h : r = v ++ post)
    (hs : r <:+ post.tail) : False := by
  have h₁ := congrArg List.length h
  have h₂ := hs.length_le
  have h₃ := List.length_pos_of_ne_nil hp
  rw [List.length_append] at h₁
  rw [List.length_tail] at h₂
  omega

theorem Local.value {α : Type} (a : α) : Local fun us => (a, us) := by
  intro w post cut v _ _ h
  rw [List.append_cancel_right h]

theorem Local.map {α β : Type} {f : Runes → α × Runes} (hf : Local f) (g : α → β) :
    Local fun us => (g (f us).1, (f us).2) := by
  intro w post cut v ho hp h
  dsimp only at h ⊢
  rw [hf ho hp h]

theorem Local.bind {α β : Type} {f : Runes → α × Runes} {g : α → Runes → β × Runes}
    (hf : Local f) (sf : ∀ us, (f us).2 <:+ us) (hg : ∀ a, Local (g a))
    (sg : ∀ a us, (g a us).2 <:+ us) : Local fun us => g (f us).1 (f us).2 := by
  intro w post cut v ho hp h
  dsimp only at h ⊢
  have hv : v ++ post <:+ (f (w ++ post)).2 := by
    rw [← h]
    exact sg _ _
  obtain ⟨q, hq, -, -⟩ := suffix_split (sf (w ++ post)) hv
  rw [hf ho hp hq]
  rw [hq] at h ⊢
  exact hg _ ho hp h

/-- A character is taken if it is no slash. -/
theorem Local.next {α : Type} {p : ℤ → Prop} [DecidablePred p] (hs : ¬ p (rune '/'))
    {f : ℤ → Runes → α × Runes} {g : Runes → α × Runes} (hf : ∀ c, Local (f c))
    (sf : ∀ c us, (f c us).2 <:+ us) (hg : Local g) :
    Local fun us => if p (ahead us) then f (ahead us) us.tail else g us := by
  intro w post cut v ho hp h
  dsimp only at h ⊢
  cases w with
  | nil =>
    rw [List.nil_append] at h ⊢
    have hc : ahead cut = rune '/' := by
      obtain ⟨r, rfl⟩ := ho
      rfl
    have hn : ¬ p (ahead post) := by
      intro hpa
      rw [if_pos hpa] at h
      exact not_past hp h (sf _ _)
    rw [if_neg hn] at h
    rw [hc, if_neg hs, List.nil_append, if_neg hn]
    exact hg (w := []) ho hp h
  | cons c w =>
    rw [List.cons_append] at h ⊢
    rw [List.cons_append]
    change (if p c then f c (w ++ post) else g (c::(w ++ post))).2 = v ++ post at h
    change (if p c then f c (w ++ cut) else g (c::(w ++ cut))) =
      ((if p c then f c (w ++ post) else g (c::(w ++ post))).1, v ++ cut)
    by_cases hc : p c
    · rw [if_pos hc] at h ⊢
      rw [if_pos hc]
      exact hf c ho hp h
    · rw [if_neg hc] at h ⊢
      rw [if_neg hc]
      exact hg (w := c::w) ho hp h

/-- A run of characters, none of them a slash. -/
theorem Local.span {p : ℤ → Bool} (hs : p (rune '/') = false) :
    Local fun us => (us.takeWhile p, us.dropWhile p) := by
  intro w post cut v ho hp h
  dsimp only at h ⊢
  induction w with
  | nil =>
    rw [List.nil_append] at h ⊢
    rw [List.nil_append]
    obtain ⟨r, rfl⟩ := ho
    cases post with
    | nil => exact absurd rfl hp
    | cons c post =>
      by_cases hc : p c = true
      · rw [List.dropWhile_cons_of_pos hc] at h
        exact (not_past hp h (List.dropWhile_suffix p)).elim
      · rw [List.dropWhile_cons_of_neg hc] at h
        have hv : v = [] := by
          have := congrArg List.length h
          rw [List.length_append] at this
          exact List.eq_nil_of_length_eq_zero (by omega)
        rw [hv, List.takeWhile_cons_of_neg hc, List.takeWhile_cons_of_neg (by rw [hs]; simp),
          List.dropWhile_cons_of_neg (by rw [hs]; simp)]
        rfl
  | cons c w ih =>
    rw [List.cons_append] at h ⊢
    rw [List.cons_append]
    by_cases hc : p c = true
    · rw [List.dropWhile_cons_of_pos hc] at h
      rw [List.takeWhile_cons_of_pos hc, List.takeWhile_cons_of_pos hc,
        List.dropWhile_cons_of_pos hc]
      have := Prod.mk.inj (ih h)
      rw [this.1, this.2]
    · rw [List.dropWhile_cons_of_neg hc] at h
      rw [List.takeWhile_cons_of_neg hc, List.takeWhile_cons_of_neg hc,
        List.dropWhile_cons_of_neg hc, ← List.append_cancel_right (show c::w ++ post = v ++ post from h)]
      rfl

theorem ifNext_local {α : Type} {expect : ℤ} (he : rune '/' ≠ expect) (ifyes ifno : α) :
    Local (ifNext expect ifyes ifno) :=
  Local.next (p := (· = expect)) he (fun _ => Local.value ifyes) (fun _ us => List.suffix_refl us)
    (Local.value ifno)

theorem rightshift_local {α : Type} (iftwo ifone ifnone : α) :
    Local (rightshift iftwo ifone ifnone) :=
  Local.next (p := (· = rune '>')) (by decide) (fun _ => ifNext_local (by decide) _ _)
    (fun _ => ifNext_suffix _ _ _) (Local.value ifnone)

theorem bitwise_cases (us : Runes) :
    bitwise us = (none, us) ∨ ahead us.tail = rune '.' ∧ (bitwise us).2 = us.tail.tail := by
  unfold bitwise
  split_ifs with h₁
  · exact .inl rfl
  · exact .inr ⟨not_not.mp h₁, rfl⟩
  · exact .inr ⟨not_not.mp h₁, rfl⟩
  · exact .inr ⟨not_not.mp h₁, rfl⟩
  · exact .inl rfl

theorem bitwise_none {us : Runes} (h : ahead us.tail ≠ rune '.') : bitwise us = (none, us) :=
  if_pos h

theorem bitwise_local : Local bitwise := by
  intro w post cut v ho hp h
  obtain ⟨r, rfl⟩ := ho
  match w with
  | [] =>
    change (bitwise post).2 = v ++ post at h
    change bitwise _ = ((bitwise post).1, _)
    rcases bitwise_cases post with hb | ⟨-, hb⟩
    · rw [hb] at h ⊢
      have hv : [] = v := List.append_cancel_right (show [] ++ post = v ++ post from h)
      rw [← hv]
      exact bitwise_none (show rune '*' ≠ rune '.' by decide)
    · exact (not_past hp (hb.symm.trans h) (List.tail_suffix _)).elim
  | [a] =>
    change (bitwise (a::post)).2 = v ++ post at h
    change bitwise (a::_) = ((bitwise (a::post)).1, _)
    rcases bitwise_cases (a::post) with hb | ⟨-, hb⟩
    · rw [hb] at h ⊢
      have hv : [a] = v := List.append_cancel_right (show [a] ++ post = v ++ post from h)
      rw [← hv]
      exact bitwise_none (show rune '/' ≠ rune '.' by decide)
    · exact (not_past hp (hb.symm.trans h) (List.suffix_refl _)).elim
  | a::b::w =>
    have hk : ∀ us, bitwise (a::b::us) = if b ≠ rune '.' then (none, a::b::us)
        else if a = rune '&' then (some .tBitand, us)
        else if a = rune '|' then (some .tBitor, us)
        else if a = rune '^' then (some .tBitxor, us) else (none, a::b::us) := fun _ => rfl
    rw [List.cons_append, List.cons_append, hk] at h ⊢
    rw [List.cons_append, List.cons_append, hk]
    split_ifs at h ⊢
    · rw [← List.append_cancel_right (show a::b::w ++ post = v ++ post from h)]
      rfl
    · rw [List.append_cancel_right h]
    · rw [List.append_cancel_right h]
    · rw [List.append_cancel_right h]
    · rw [← List.append_cancel_right (show a::b::w ++ post = v ++ post from h)]
      rfl

theorem orNext_local {f : Runes → Option Kind × Runes} {next : Runes → Kind × Runes}
    (hf : Local f) (sf : ∀ us, (f us).2 <:+ us) (hn : Local next)
    (sn : ∀ us, (next us).2 <:+ us) : Local fun us => orNext (f us) next := by
  have hg : ∀ k : Option Kind, Local fun us => orNext (k, us) next := by
    intro k
    cases k with
    | none => exact hn.map fun k => (some ⟨k, .none⟩ : Option Token)
    | some k => exact Local.value (some (⟨k, .none⟩ : Token))
  exact hf.bind sf hg fun k us => orNext_suffix (List.suffix_refl us) sn

theorem single_local {f : Runes → Kind × Runes} (hf : Local f) : Local fun us => single (f us) :=
  hf.map fun k => (some ⟨k, .none⟩ : Option Token)

theorem dot_local : Local dot :=
  orNext_local bitwise_local bitwise_suffix (ifNext_local (by decide) _ _) (ifNext_suffix _ _ _)

theorem other_local (c : ℤ) : Local (other c) := by
  have hif : ∀ {expect : ℤ}, rune '/' ≠ expect → ∀ (k : Kind) {next : Runes → Kind × Runes},
      Local next → (∀ us, (next us).2 <:+ us) →
      Local fun us => orNext (ifNext expect (some k) none us) next := by
    intro expect he k next hn sn
    exact orNext_local (ifNext_local he _ _) (ifNext_suffix _ _ _) hn sn
  unfold other
  split_ifs
  · exact hif (by decide) _ (rightshift_local _ _ _) (rightshift_suffix _ _ _)
  · exact hif (by decide) _ (ifNext_local (by decide) _ _) (ifNext_suffix _ _ _)
  · exact hif (by decide) _ (ifNext_local (by decide) _ _) (ifNext_suffix _ _ _)
  · exact single_local (ifNext_local (by decide) _ _)
  · exact single_local (ifNext_local (by decide) _ _)
  · exact single_local (ifNext_local (by decide) _ _)
  · exact dot_local
  · exact single_local (Local.value _)
  · exact Local.value _

theorem chars_tail (tok : Str) (c : ℤ) (us : Runes) : (chars tok (c::us)).2 <:+ us := by
  rw [chars.eq_def]
  dsimp only
  split
  · exact List.suffix_refl us
  · split
    · split
      · exact List.suffix_refl []
      · split
        · exact List.suffix_cons _ _
        · exact (chars_suffix _ _).trans (List.suffix_cons _ _)
    · split
      · exact List.suffix_refl us
      · exact chars_suffix _ _

theorem chars_ends {c : ℤ} (hc : c = rune '"' ∨ c = rune '\n') (tok : Str) (us : Runes) :
    chars tok (c::us) = (tok, us) := by
  rw [chars.eq_def]
  rcases hc with rfl | rfl
  · rfl
  · rfl

theorem chars_takes {c : ℤ} (hc : ¬ (c = rune '"' ∨ c = rune '\n')) (hb : c ≠ rune '\\')
    (tok : Str) (us : Runes) : chars tok (c::us) = chars (streamAddUtf tok c) us := by
  rw [chars.eq_def]
  simp only [if_neg (fun h => hc (.inl h)), if_neg hb, if_neg (fun h => hc (.inr h))]

theorem chars_escaped (d : ℤ) (tok : Str) (us : Runes) : chars tok (rune '\\'::d::us) =
    if d = rune '\n' then (tok, us) else chars (streamAddUtf tok d) us := by
  rw [chars.eq_def]
  rfl

/-- A string ends at its quote or at the end of its line. -/
theorem chars_local (tok : Str) : Local (chars tok) := by
  intro w post cut v ho hp h
  induction hk : w.length using Nat.strong_induction_on generalizing w tok with
  | _ k ih =>
    subst hk
    obtain ⟨e, rest, rfl⟩ := List.exists_cons_of_ne_nil hp
    cases w with
    | nil => exact (not_past hp h (chars_tail tok e rest)).elim
    | cons c w =>
      change (chars tok (c::(w ++ e::rest))).2 = v ++ e::rest at h
      change chars tok (c::(w ++ cut)) = ((chars tok (c::(w ++ e::rest))).1, v ++ cut)
      by_cases hc : c = rune '"' ∨ c = rune '\n'
      · rw [chars_ends hc] at h ⊢
        rw [chars_ends hc, List.append_cancel_right h]
      · by_cases hb : c = rune '\\'
        · subst hb
          cases w with
          | nil =>
            rw [List.nil_append, chars_escaped] at h
            split_ifs at h
            · exact (not_past hp h (List.suffix_refl rest)).elim
            · exact (not_past hp h (chars_suffix _ rest)).elim
          | cons d w =>
            rw [List.cons_append, chars_escaped] at h ⊢
            rw [List.cons_append, chars_escaped]
            by_cases hd : d = rune '\n'
            · rw [if_pos hd] at h ⊢
              rw [if_pos hd, List.append_cancel_right h]
            · rw [if_neg hd] at h ⊢
              rw [if_neg hd]
              exact ih w.length (by simp only [List.length_cons]; omega) _ h rfl
        · rw [chars_takes hc hb] at h ⊢
          rw [chars_takes hc hb]
          exact ih w.length (by simp) _ h rfl

theorem comment_takes {c : ℤ} (hc : c ≠ rune '*') (us : Runes) :
    comment (c::us) = comment us := by
  rw [comment.eq_def]
  exact if_neg hc

theorem comment_star (d : ℤ) (us : Runes) :
    comment (rune '*'::d::us) = if d = rune '/' then some us else comment us := by
  rw [comment.eq_def]
  rfl

theorem comment_tail {c : ℤ} {us vs : Runes} (h : comment (c::us) = some vs) : vs <:+ us := by
  by_cases hc : c = rune '*'
  · subst hc
    cases us with
    | nil => simp [comment] at h
    | cons d us =>
      rw [comment_star] at h
      split_ifs at h
      · rw [← Option.some.inj h]
        exact List.suffix_cons d us
      · exact (comment_suffix h).trans (List.suffix_cons d us)
  · rw [comment_takes hc] at h
    exact comment_suffix h

/-- A comment that ends before `post` ends in whatever way the text goes on. -/
theorem comment_cut {w post v : Runes} (hp : post ≠ [])
    (h : comment (w ++ post) = some (v ++ post)) (cut : Runes) :
    comment (w ++ cut) = some (v ++ cut) := by
  induction hk : w.length using Nat.strong_induction_on generalizing w with
  | _ k ih =>
    subst hk
    obtain ⟨e, rest, rfl⟩ := List.exists_cons_of_ne_nil hp
    cases w with
    | nil => exact (not_past hp rfl (comment_tail h)).elim
    | cons c w =>
      rw [List.cons_append] at h ⊢
      by_cases hc : c = rune '*'
      · subst hc
        cases w with
        | nil =>
          rw [List.nil_append, comment_star] at h
          split_ifs at h
          · exact (not_past hp (Option.some.inj h) (List.suffix_refl rest)).elim
          · exact (not_past hp rfl (comment_suffix h)).elim
        | cons d w =>
          rw [List.cons_append, comment_star] at h ⊢
          by_cases hd : d = rune '/'
          · rw [if_pos hd] at h ⊢
            rw [List.append_cancel_right (Option.some.inj h)]
          · rw [if_neg hd] at h ⊢
            exact ih w.length (by simp only [List.length_cons]; omega) h rfl
      · rw [comment_takes hc] at h ⊢
        exact ih w.length (by simp) h rfl

end LambdaMoo.Lexemes
