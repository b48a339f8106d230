import LambdaMoo.InputQueue

/-!
# The chains of the input queue

The pointer work of the queue, one lemma for each way a task can come or go: to
the front, to the rear, from the front, and from the head of the second run,
where the runs on both sides of a run of one become one run.
-/

set_option autoImplicit false

namespace LambdaMoo.Input

open LambdaMoo.Linked

variable {tq : TQueue} {queue q : List (ℕ × Task)} {p b z : ℕ × Task} {t : ℕ} {T : Task}

theorem tails_same (h : isOob p.2 = isOob b.2) : tails (p :: b :: q) = tails (b :: q) := by
  unfold tails
  rw [runTails, if_pos h]

theorem tails_differ (h : isOob p.2 ≠ isOob b.2) :
    tails (p :: b :: q) = p.1 :: tails (b :: q) := by
  unfold tails
  rw [runTails, if_neg h]
  rfl

theorem tails_run {r : List (ℕ × Task)} (h : ∀ x ∈ r, isOob x.2 = isOob z.2) :
    tails (r ++ z :: q) = tails (z :: q) := by
  unfold tails
  rw [runTails_run h]

theorem mem_tails {a : ℕ} (h : a ∈ tails queue) : a ∈ queue.map Prod.fst :=
  ((runTails_sublist queue).map Prod.fst).subset h

theorem tails_ne_nil : tails (p :: q) ≠ [] := by
  rcases List.eq_nil_or_concat (p :: q) with h | ⟨l, z, h⟩
  · simp at h
  · obtain ⟨m, hm⟩ := runTails_last (f := fun p : ℕ × Task => isOob p.2) l z
    simp [tails, h, List.concat_eq_append, hm]

theorem final_dropLast_cons {a : ℕ} {l : List ℕ} (h : l ≠ []) :
    final .head (a :: l).dropLast = final (.next a) l.dropLast := by
  cases l with
  | nil => exact absurd rfl h
  | cons b l => rfl

theorem Chained.front (h : Chained tq (p :: queue)) (ht : t ∉ (p :: queue).map Prod.fst)
    (hT : tq.task t = T) : Chained (linkFront t p.1 tq) ((t, T) :: p :: queue) := by
  have hp : tq.task p.1 = p.2 := h.tasks p List.mem_cons_self
  have htail : t ∉ tails (p :: queue) := fun hm => ht (mem_tails hm)
  have hout := h.itail.set_out none htail
  have htasks : ∀ x ∈ (t, T) :: p :: queue, tq.task x.1 = x.2 := by
    intro x hx
    rcases List.mem_cons.mp hx with rfl | hx
    · exact hT
    · exact h.tasks x hx
  have hlast : tq.lastInput = final .head (((t, T) :: p :: queue).map Prod.fst) := h.lastInput
  unfold linkFront
  by_cases hc : isOob p.2 = isOob T
  · simp only [hp, hT, hc, ne_eq, not_true_eq_false, if_false]
    refine ⟨h.input.cons ht, hlast, ?_, ?_, htasks⟩
    · rw [tails_same hc.symm]
      exact hout
    · rw [tails_same hc.symm]
      exact h.lastItail
  · simp only [hp, hT, hc, ne_eq, not_false_eq_true, if_true]
    refine ⟨h.input.cons ht, hlast, ?_, ?_, htasks⟩
    · rw [tails_differ fun hT => hc hT.symm]
      exact hout.cons htail
    · rw [tails_differ fun hT => hc hT.symm, final_dropLast_cons tails_ne_nil, h.lastItail]
      by_cases hd : (tails (p :: queue)).dropLast = []
      · simp [hd, final]
      · rw [if_neg (by rwa [final_head_iff]), final_congr .head (.next t) hd]

theorem linkRear_some {z : ℕ} (hz : (tq.itail.set (.next t) none).get tq.lastItail = some z)
    (hh : tq.input.head ≠ none) :
    linkRear t tq = some { tq with
      lastItail := if isOob (tq.task z) ≠ isOob (tq.task t) then .next z else tq.lastItail
      itail := (tq.itail.set (.next t) none).set
        (if isOob (tq.task z) ≠ isOob (tq.task t) then .next z else tq.lastItail) (some t)
      input := (tq.input.set tq.lastInput (some t)).set (.next t) none
      lastInput := .next t } := by
  simp only [linkRear, if_pos hh, hz]
  rfl

theorem linkRear_nil (hh : tq.input.head = none) :
    linkRear t tq = some { tq with
      itail := (tq.itail.set (.next t) none).set tq.lastItail (some t)
      input := (tq.input.set tq.lastInput (some t)).set (.next t) none
      lastInput := .next t } := by
  simp only [linkRear, hh, ne_eq, not_true_eq_false, if_false]
  rfl

theorem Chained.rear (h : Chained tq queue) (ht : t ∉ queue.map Prod.fst) (hT : tq.task t = T) :
    ∃ tq', linkRear t tq = some tq' ∧ Chained tq' (queue ++ [(t, T)]) ∧
      tq' = { tq with
        lastItail := tq'.lastItail
        itail := tq'.itail
        input := tq'.input
        lastInput := tq'.lastInput } := by
  have htail : t ∉ tails queue := fun hm => ht (mem_tails hm)
  have htasks : ∀ x ∈ queue ++ [(t, T)], tq.task x.1 = x.2 := by
    intro x hx
    rcases List.mem_append.mp hx with hx | hx
    · exact h.tasks x hx
    · cases List.mem_singleton.mp hx
      exact hT
  have hinput : Lists ((tq.input.set tq.lastInput (some t)).set (.next t) none)
      ((queue ++ [(t, T)]).map Prod.fst) := by
    rw [h.lastInput, List.map_append]
    exact h.input.append ht
  have hlast : Slot.next t = final .head ((queue ++ [(t, T)]).map Prod.fst) := by simp
  rcases List.eq_nil_or_concat queue with rfl | ⟨l, z, rfl⟩
  · have hh : tq.input.head = none := h.input.head_eq
    refine ⟨_, linkRear_nil hh, ⟨hinput, hlast, ?_, h.lastItail, htasks⟩, rfl⟩
    have happ := h.itail.append htail
    show Lists ((tq.itail.set (.next t) none).set tq.lastItail (some t)) [t]
    rw [h.lastItail, set_comm _ _ _ (next_ne_final (by simp [tails, runTails]))]
    exact happ
  · rw [List.concat_eq_append] at *
    have hh : tq.input.head ≠ none := by
      rw [h.input.head_eq]
      simp
    obtain ⟨m, hm⟩ := runTails_last (f := fun p : ℕ × Task => isOob p.2) l z
    have htails : tails (l ++ [z]) = m.map Prod.fst ++ [z.1] := by simp [tails, hm]
    have hconcat := runTails_concat (f := fun p : ℕ × Task => isOob p.2) hm (t, T)
    have hitail := h.itail
    have hlastItail := h.lastItail
    rw [htails, List.dropLast_concat] at hlastItail
    rw [htails] at hitail htail
    have hz : (tq.itail.set (.next t) none).get tq.lastItail = some z.1 := by
      rw [hlastItail]
      exact (hitail.set_out none htail).get_final
    have hzt : tq.task z.1 = z.2 := h.tasks z (by simp)
    have hnm : t ∉ m.map Prod.fst := fun hm => htail (by simp [hm])
    refine ⟨_, linkRear_some hz hh, ⟨hinput, hlast, ?_, ?_, htasks⟩, rfl⟩
    · simp only [hzt, hT, tails, hconcat]
      by_cases hc : isOob z.2 = isOob T
      · simp only [hc, ne_eq, not_true_eq_false, if_false, if_true, hlastItail]
        rw [set_comm _ _ _ (next_ne_final hnm), List.map_append]
        exact hitail.replace hnm
      · simp only [hc, ne_eq, not_false_eq_true, if_false, if_true]
        have happ := hitail.append htail
        rw [final_concat] at happ
        rw [set_comm _ _ _ fun hs => htail (by cases hs; simp), List.map_append]
        simpa using happ
    · simp only [hzt, hT, tails, hconcat]
      by_cases hc : isOob z.2 = isOob T
      · simp only [hc, ne_eq, not_true_eq_false, if_false, if_true, hlastItail, List.map_append,
          List.map_cons, List.map_nil, List.dropLast_concat]
      · simp only [hc, ne_eq, not_false_eq_true, if_false, if_true]
        rw [show m ++ [z, (t, T)] = (m ++ [z]) ++ [(t, T)] by simp, List.map_append,
          List.map_cons, List.map_nil, List.dropLast_concat]
        simp

theorem unlinkInput_lists {l m : List ℕ} (h : Lists tq.input (l ++ t :: m))
    (hl : tq.lastInput = final .head (l ++ t :: m)) :
    Lists (unlinkInput t (final .head l) tq).input (l ++ m) ∧
      (unlinkInput t (final .head l) tq).lastInput = final .head (l ++ m) := by
  have hn : t ∉ l ++ m := (List.nodup_cons.mp (List.nodup_middle.mp h.nodup)).1
  have hne : Slot.next t ≠ final .head l := next_ne_final fun hm => hn (by simp [hm])
  have hnext : (tq.input.set (final .head l) (tq.input.next t)).next t = m.head? := by
    have hget := get_set_ne tq.input (tq.input.next t) hne
    exact Eq.trans hget h.next_eq
  have hrem := h.remove
  unfold unlinkInput
  simp only [hnext]
  cases m with
  | nil => exact ⟨hrem, by simp⟩
  | cons a m =>
    refine ⟨hrem.set_out none hn, ?_⟩
    show tq.lastInput = _
    rw [hl, final_append, final_append]
    rfl

/-- A task that is a run of its own leaves: the run before it and the run after it are one. -/
theorem unlinkItail_lists {l m : List ℕ} (h : Lists tq.itail (l ++ t :: m))
    (hl : tq.lastItail = final .head (l ++ t :: m).dropLast) (hlen : l.length ≤ 1) :
    Lists (unlinkItail t (final .head l) tq).itail (if m = [] then l else m) ∧
      (unlinkItail t (final .head l) tq).lastItail =
        final .head (if m = [] then l else m).dropLast := by
  have hn : t ∉ l ++ m := (List.nodup_cons.mp (List.nodup_middle.mp h.nodup)).1
  have hne : Slot.next t ≠ final .head l := next_ne_final fun hm => hn (by simp [hm])
  have hnext : (tq.itail.set (final .head l) none).next t = m.head? := by
    have hget := get_set_ne tq.itail none hne
    exact Eq.trans hget h.next_eq
  have hget : tq.itail.get (final .head l) = some t := h.get_final
  unfold unlinkItail
  rw [if_pos hget]
  simp only [hnext]
  cases m with
  | nil =>
    have hrem := h.remove
    rw [h.next_eq] at hrem
    have hdrop : l.dropLast = [] := by
      apply List.eq_nil_of_length_eq_zero
      rw [List.length_dropLast]
      omega
    rw [List.dropLast_concat] at hl
    simp only [List.head?_nil, if_true, hl, get_set_self, hdrop, final, and_true]
    simpa using hrem
  | cons x m =>
    have hskip : Lists (tq.itail.set .head (some x)) (x :: m) := by
      have : Lists tq.itail ((l ++ [t]) ++ x :: m) := by simpa using h
      exact this.skip
    have hlists : Lists (((tq.itail.set (final .head l) none).set .head (some x)).set (.next t)
        none) (x :: m) := by
      have hl1 : Lists ((tq.itail.set (final .head l) none).set .head (some x))
          (x :: m) := by
        rcases final_mem .head l with hf | ⟨a, ha, hf⟩
        · rw [hf, set_set]
          exact hskip
        · rw [hf, set_comm _ _ _ (by simp)]
          apply hskip.set_out
          intro hm
          have := h.nodup
          simp only [List.nodup_append] at this
          exact this.2.2 a ha a (List.mem_cons_of_mem _ hm) rfl
      exact hl1.set_out none fun hm => hn (List.mem_append_right _ hm)
    rw [if_neg (by simp)]
    refine ⟨hlists, ?_⟩
    simp only [List.head?_cons]
    have hl' : tq.lastItail = final (.next t) (x :: m).dropLast := by
      rw [hl, List.dropLast_append_of_ne_nil (by simp), final_append]
      rfl
    by_cases hd : (x :: m).dropLast = []
    · rw [hl', hd]
      exact if_pos (get_set_self _ _ _)
    · have hsome : Links.get (((tq.itail.set (final .head l) none).set .head (some x)).set
          (.next t) none) tq.lastItail ≠ none := by
        have hx : (x :: m).dropLast ++ [(x :: m).getLast (by simp)] = x :: m :=
          List.dropLast_append_getLast (by simp)
        rw [← hx] at hlists
        rw [hl', final_congr (.next t) .head hd, hlists.get_final]
        simp
      exact (if_neg hsome).trans (hl'.trans (final_congr (.next t) .head hd))

/-- Everything the two unlinkings leave alone. -/
structure Rest (tq tq' : TQueue) : Prop where
  task : tq'.task = tq.task
  total : tq'.totalInputLength = tq.totalInputLength
  disableOob : tq'.disableOob = tq.disableOob
  fresh : tq'.fresh = tq.fresh

theorem Rest.trans {tq tq' tq'' : TQueue} (h : Rest tq tq') (h' : Rest tq' tq'') : Rest tq tq'' :=
  ⟨h'.task.trans h.task, h'.total.trans h.total, h'.disableOob.trans h.disableOob,
    h'.fresh.trans h.fresh⟩

theorem unlinkInput_rest (t : ℕ) (pt : Slot ℕ) (tq : TQueue) : Rest tq (unlinkInput t pt tq) := by
  simp only [unlinkInput]
  split <;> exact ⟨rfl, rfl, rfl, rfl⟩

theorem unlinkItail_rest (t : ℕ) (pitail : Slot ℕ) (tq : TQueue) :
    Rest tq (unlinkItail t pitail tq) := by
  simp only [unlinkItail]
  split <;> exact ⟨rfl, rfl, rfl, rfl⟩

theorem unlink_rest (t : ℕ) (pt pitail : Slot ℕ) (tq : TQueue) :
    Rest tq (unlinkItail t pitail (unlinkInput t pt tq)) :=
  (unlinkInput_rest t pt tq).trans (unlinkItail_rest t pitail _)

theorem unlinkInput_itail (t : ℕ) (pt : Slot ℕ) (tq : TQueue) :
    (unlinkInput t pt tq).itail = tq.itail ∧ (unlinkInput t pt tq).lastItail = tq.lastItail := by
  simp only [unlinkInput]
  split <;> exact ⟨rfl, rfl⟩

theorem unlinkItail_input (t : ℕ) (pitail : Slot ℕ) (tq : TQueue) :
    (unlinkItail t pitail tq).input = tq.input ∧
      (unlinkItail t pitail tq).lastInput = tq.lastInput := by
  unfold unlinkItail
  split <;> exact ⟨rfl, rfl⟩

/-- The two unlinkings together, given what becomes of the runs. -/
theorem Chained.unlink {r : List (ℕ × Task)} (pitail : Slot ℕ)
    (h : Chained tq (r ++ (t, T) :: q))
    (hi : Lists (unlinkItail t pitail (unlinkInput t (final .head (r.map Prod.fst)) tq)).itail
      (tails (r ++ q)))
    (hl : (unlinkItail t pitail (unlinkInput t (final .head (r.map Prod.fst)) tq)).lastItail =
      final .head (tails (r ++ q)).dropLast) :
    Chained (unlinkItail t pitail (unlinkInput t (final .head (r.map Prod.fst)) tq)) (r ++ q) := by
  have hin := h.input
  have hlast := h.lastInput
  rw [List.map_append, List.map_cons] at hin hlast
  have hun := unlinkInput_lists hin hlast
  have hkeep := unlinkItail_input t pitail (unlinkInput t (final .head (r.map Prod.fst)) tq)
  refine ⟨?_, ?_, hi, hl, ?_⟩
  · rw [hkeep.1, List.map_append]
    exact hun.1
  · rw [hkeep.2, List.map_append]
    exact hun.2
  · intro x hx
    rw [(unlink_rest t _ pitail tq).task]
    apply h.tasks x
    simp only [List.mem_append, List.mem_cons] at hx ⊢
    tauto

theorem Chained.not_mem {r : List (ℕ × Task)} (h : Chained tq (r ++ (t, T) :: q)) :
    t ∉ (r ++ q).map Prod.fst := by
  have hn := h.input.nodup
  rw [List.map_append, List.map_cons] at hn
  rw [List.map_append]
  exact (List.nodup_cons.mp (List.nodup_middle.mp hn)).1

theorem mem_head_tails {a : ℕ} (h : (tails queue).head? = some a) : a ∈ queue.map Prod.fst :=
  mem_tails (List.mem_of_mem_head? h)

/-- The first task of all leaves. -/
theorem Chained.take_first (h : Chained tq ((t, T) :: q)) :
    Chained (unlinkItail t .head (unlinkInput t .head tq)) q := by
  obtain ⟨hkeep, hkeep'⟩ := unlinkInput_itail t .head tq
  have hitail := h.itail
  have hlast := h.lastItail
  rw [← hkeep] at hitail
  rw [← hkeep'] at hlast
  have hrun : tails ((t, T) :: q) = tails q ∨ tails ((t, T) :: q) = t :: tails q := by
    cases q with
    | nil => exact .inr rfl
    | cons b q =>
      by_cases hc : isOob T = isOob b.2
      · exact .inl (tails_same hc)
      · exact .inr (tails_differ hc)
  rcases hrun with hrun | hrun
  · rw [hrun] at hitail hlast
    have hget : (unlinkInput t .head tq).itail.get .head ≠ some t := by
      intro hg
      exact h.not_mem (r := []) (mem_head_tails (hitail.head_eq.symm.trans hg))
    have hsame : unlinkItail t .head (unlinkInput t .head tq) = unlinkInput t .head tq :=
      if_neg hget
    exact Chained.unlink (r := []) .head h (by rw [List.map_nil, final, hsame]; exact hitail)
      (by rw [List.map_nil, final, hsame]; exact hlast)
  · rw [hrun] at hitail hlast
    have hun := unlinkItail_lists (l := []) hitail hlast (by simp)
    have hif : (if tails q = [] then [] else tails q) = tails q := by
      split <;> simp_all
    rw [hif] at hun
    exact Chained.unlink (r := []) .head h hun.1 hun.2

/-- The first task of the second run leaves, and the runs around it may become one. -/
theorem Chained.take_second {r : List (ℕ × Task)} (h : Chained tq (r ++ z :: (t, T) :: q))
    (hr : ∀ x ∈ r, isOob x.2 = isOob z.2) (hT : isOob T ≠ isOob z.2) :
    Chained (unlinkItail t (.next z.1) (unlinkInput t (.next z.1) tq)) (r ++ z :: q) := by
  obtain ⟨hkeep, hkeep'⟩ := unlinkInput_itail t (.next z.1) tq
  have hitail := h.itail
  have hlast := h.lastItail
  rw [← hkeep, tails_run hr, tails_differ hT.symm] at hitail
  rw [← hkeep', tails_run hr, tails_differ hT.symm] at hlast
  have h' : Chained tq ((r ++ [z]) ++ (t, T) :: q) := by simpa using h
  have hfin : final .head ((r ++ [z]).map Prod.fst) = .next z.1 := by simp
  have hdone : (r ++ [z]) ++ q = r ++ z :: q := by simp
  have hgoal := Chained.unlink (.next z.1) h'
  rw [hfin, hdone, tails_run hr] at hgoal
  cases q with
  | nil =>
    have hun := unlinkItail_lists (l := [z.1]) hitail hlast (by simp)
    exact hgoal hun.1 hun.2
  | cons b q =>
    by_cases hb : isOob T = isOob b.2
    · rw [tails_same hb] at hitail hlast
      have hget : (unlinkInput t (.next z.1) tq).itail.get (.next z.1) ≠ some t := by
        intro hg
        have hhead := hitail.next_cons.symm.trans hg
        have hmem := mem_head_tails hhead
        apply h'.not_mem
        rw [List.map_append]
        exact List.mem_append_right _ hmem
      have hsame : unlinkItail t (.next z.1) (unlinkInput t (.next z.1) tq) =
          unlinkInput t (.next z.1) tq := if_neg hget
      rw [hsame, tails_differ fun hz => hT (hb.trans hz.symm)] at hgoal
      rw [hsame]
      exact hgoal hitail hlast
    · have hz : isOob z.2 = isOob b.2 := by
        revert hT hb
        cases isOob T <;> cases isOob z.2 <;> cases isOob b.2 <;> simp
      rw [tails_differ hb] at hitail hlast
      have hun := unlinkItail_lists (l := [z.1]) hitail hlast (by simp)
      rw [if_neg tails_ne_nil] at hun
      rw [tails_same hz] at hgoal
      exact hgoal hun.1 hun.2

end LambdaMoo.Input
