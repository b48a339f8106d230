import Mathlib.Algebra.BigOperators.Ring.Finset
import Mathlib.Algebra.Order.BigOperators.Group.List
import LambdaMoo.InputChains

/-!
# Runs of the input queue

The operations on top of the pointer work, and the refinement: every run of the
code hands out the tasks the list would hand out, and its chains and its counter
stand for the list all the way.
-/

set_option autoImplicit false

namespace LambdaMoo.Input

open LambdaMoo.Linked

variable {tq : TQueue} {queue q : List (ℕ × Task)} {z : ℕ × Task} {t : ℕ} {T : Task}

theorem noticeTask_chained (h : Chained tq queue) : Chained (noticeTask t tq) queue := by
  unfold noticeTask
  dsimp only
  split <;> split <;> exact ⟨h.input, h.lastInput, h.itail, h.lastItail, h.tasks⟩

theorem noticeTask_rest (t : ℕ) (tq : TQueue) : Rest tq (noticeTask t tq) := by
  unfold noticeTask
  dsimp only
  split <;> split <;> exact ⟨rfl, rfl, rfl, rfl⟩

theorem linkFront_rest (t f : ℕ) (tq : TQueue) : Rest tq (linkFront t f tq) := by
  unfold linkFront
  dsimp only
  split <;> exact ⟨rfl, rfl, rfl, rfl⟩

theorem allocTask_chained (h : Chained tq queue) (hf : ∀ p ∈ queue, p.1 < tq.fresh) :
    Chained (allocTask T tq) queue := by
  refine ⟨h.input, h.lastInput, h.itail, h.lastItail, ?_⟩
  intro p hp
  have hne : p.1 ≠ tq.fresh := (hf p hp).ne
  simp only [allocTask, Function.update_of_ne hne]
  exact h.tasks p hp

theorem linkTask_chained (atFront : Bool) (h : Chained tq queue) (ht : t ∉ queue.map Prod.fst)
    (hT : tq.task t = T) :
    ∃ tq', linkTask t atFront tq = some tq' ∧ Rest tq tq' ∧
      Chained tq' (if atFront then (t, T) :: queue else queue ++ [(t, T)]) := by
  obtain ⟨tq', hrear, hchained, heq⟩ := h.rear ht hT
  have hrest : Rest tq tq' := by
    rw [heq]
    exact ⟨rfl, rfl, rfl, rfl⟩
  have hhead := h.input.head_eq
  unfold linkTask
  cases atFront with
  | false => exact ⟨tq', hrear, hrest, hchained⟩
  | true =>
    cases queue with
    | nil =>
      rw [List.map_nil, List.head?_nil] at hhead
      rw [hhead]
      exact ⟨tq', hrear, hrest, hchained⟩
    | cons p queue =>
      rw [List.map_cons, List.head?_cons] at hhead
      rw [hhead]
      exact ⟨_, rfl, linkFront_rest t p.1 tq, h.front ht hT⟩

theorem enqueueInputTask_shaped {s : Spec} (h : Shaped tq s) (input : List UInt8)
    (atFront binary : Bool) :
    ∃ tq', enqueueInputTask input atFront binary tq = some tq' ∧
      Shaped tq' (s.step (.enqueue input atFront binary)).1 := by
  have hlive : ∀ p ∈ s.queue, p.1 < tq.fresh := by
    rw [h.fresh]
    exact h.live
  have hfree : tq.fresh ∉ s.queue.map Prod.fst := by
    intro hm
    obtain ⟨p, hp, hpf⟩ := List.mem_map.mp hm
    exact (hlive p hp).ne hpf
  have halloc : Chained (allocTask (newInputTask input binary) tq) s.queue :=
    allocTask_chained h.chained hlive
  obtain ⟨tq1, hlink, hrest, hchained⟩ := linkTask_chained atFront halloc hfree
    (T := newInputTask input binary) (by simp [allocTask])
  have hnotice := noticeTask_rest tq.fresh tq1
  refine ⟨_, by rw [enqueueInputTask, hlink]; rfl, ?_, ?_, ?_, ?_, ?_⟩
  · simp only [Spec.step, ← h.fresh]
    exact noticeTask_chained hchained
  · rw [hnotice.total, hrest.total]
    simp only [allocTask, Spec.step, h.total]
    cases atFront with
    | false => simp
    | true => simp [add_comm]
  · exact hnotice.disableOob.trans (hrest.disableOob.trans h.disableOob)
  · rw [hnotice.fresh, hrest.fresh]
    simp [allocTask, Spec.step, h.fresh]
  · intro p hp
    simp only [Spec.step] at hp ⊢
    have hp' : p ∈ s.queue ∨ p = (s.fresh, newInputTask input binary) := by
      cases atFront <;> simp at hp <;> tauto
    rcases hp' with hp' | rfl
    · exact Nat.lt_succ_of_lt (h.live p hp')
    · exact Nat.lt_succ_self _

theorem resumeInput_rest (tq : TQueue) : Rest tq (resumeInput tq) := by
  unfold resumeInput
  split <;> exact ⟨rfl, rfl, rfl, rfl⟩

theorem resumeInput_chained (h : Chained tq queue) : Chained (resumeInput tq) queue := by
  unfold resumeInput
  split <;> exact ⟨h.input, h.lastInput, h.itail, h.lastItail, h.tasks⟩

/-- A task that has left the chains is handed out, and the counter follows. -/
theorem takeInputTask_shaped {s : Spec} {l m : List (ℕ × Task)} {pt : Slot ℕ} (h : Shaped tq s)
    (hq : s.queue = l ++ (t, T) :: m)
    (hc : Chained (unlinkItail t pt (unlinkInput t pt tq)) (l ++ m)) :
    Shaped (takeInputTask t pt pt tq) { s with queue := l ++ m } ∧
      (takeInputTask t pt pt tq).task t = delivered s.disableOob T := by
  have hmem : (t, T) ∈ s.queue := by simp [hq]
  have hT : tq.task t = T := h.chained.tasks (t, T) hmem
  have hfree : t ∉ (l ++ m).map Prod.fst := by
    have := h.chained
    rw [hq] at this
    exact this.not_mem
  unfold takeInputTask
  dsimp only
  have hrest := unlink_rest t pt pt tq
  generalize unlinkItail t pt (unlinkInput t pt tq) = tq1 at hc hrest ⊢
  have hrest2 := resumeInput_rest
    { tq1 with totalInputLength := tq1.totalInputLength - (tq1.task t).length }
  have hc2 : Chained (resumeInput
      { tq1 with totalInputLength := tq1.totalInputLength - (tq1.task t).length }) (l ++ m) :=
    resumeInput_chained ⟨hc.input, hc.lastInput, hc.itail, hc.lastItail, hc.tasks⟩
  generalize resumeInput _ = tq2 at hrest2 hc2 ⊢
  have htask : tq2.task = tq.task := hrest2.task.trans hrest.task
  have hoob : tq2.disableOob = s.disableOob :=
    hrest2.disableOob.trans (hrest.disableOob.trans h.disableOob)
  refine ⟨⟨⟨hc2.input, hc2.lastInput, hc2.itail, hc2.lastItail, ?_⟩, ?_, hoob, ?_, ?_⟩, ?_⟩
  · intro p hp
    have hne : p.1 ≠ t := fun hpt => hfree (hpt ▸ List.mem_map_of_mem hp)
    simp only [Function.update_of_ne hne]
    exact hc2.tasks p hp
  · show tq2.totalInputLength = _
    rw [hrest2.total]
    simp only [hrest.total, hrest.task, hT, h.total, hq, List.map_append, List.map_cons,
      List.sum_append, List.sum_cons]
    omega
  · exact hrest2.fresh.trans (hrest.fresh.trans h.fresh)
  · intro p hp
    apply h.live p
    rw [hq]
    simp only [List.mem_append, List.mem_cons] at hp ⊢
    tauto
  · simp [htask, hT, hoob]

/-- The class that `how` stands for, once `disable_oob` is taken into account. -/
theorem wanted_eq (disableOob : Bool) (how : How) (h : ¬(disableOob = true ∧ how = .oob))
    (p : ℕ × Task) :
    wanted disableOob how p = !(if disableOob then How.first else how).other (isOob p.2) := by
  cases disableOob <;> cases how <;> simp_all [wanted, How.other]

theorem other_congr {how : How} {j k : Bool} (h : how.other j = true) (hjk : k ≠ j) :
    how.other k = false := by
  cases how <;> cases j <;> cases k <;> simp_all [How.other]

theorem tails_head {m : List (ℕ × Task)} (h : ∀ x ∈ m.head?, isOob x.2 ≠ isOob z.2) :
    (tails (z :: m)).head? = some z.1 := by
  cases m with
  | nil => rfl
  | cons b m => rw [tails_differ (h b rfl).symm, List.head?_cons]

theorem dequeueInputTask_shaped {s : Spec} (h : Shaped tq s) (how : How) :
    ∃ r, dequeueInputTask how tq = some r ∧ Shaped r.2 (s.step (.dequeue how)).1 ∧
      (r.1.map fun t => (t, r.2.task t)) = (s.step (.dequeue how)).2 := by
  unfold dequeueInputTask
  rw [h.disableOob]
  by_cases hd : s.disableOob = true ∧ how = .oob
  · rw [if_pos hd]
    have hw : ∀ p ∈ s.queue, ¬ wanted s.disableOob how p = true := by
      intro p _
      simp [wanted, hd.1, hd.2]
    refine ⟨_, rfl, ?_⟩
    simp only [Spec.step, List.eraseP_of_forall_not hw, List.find?_eq_none.mpr hw]
    exact ⟨h, rfl⟩
  rw [if_neg hd]
  have hw := wanted_eq s.disableOob how hd
  generalize (if s.disableOob then How.first else how) = how' at hw ⊢
  have hhead := h.chained.input.head_eq
  cases hq : s.queue with
  | nil =>
    rw [hq] at hhead
    rw [show tq.input.head = none from hhead]
    refine ⟨_, rfl, ?_⟩
    simp only [Spec.step, hq, List.eraseP_nil, List.find?_nil]
    refine ⟨?_, rfl⟩
    rw [← hq]
    exact h
  | cons p q =>
    rw [hq] at hhead
    rw [show tq.input.head = some p.1 from hhead]
    have hp : tq.task p.1 = p.2 := h.chained.tasks p (by simp [hq])
    have hchained := h.chained
    cases hc : how'.other (isOob p.2) with
    | false =>
      have hslot : takeSlot how' p.1 tq = some .head := by simp [takeSlot, hp, hc]
      rw [hq] at hchained
      obtain ⟨hs, ht⟩ := takeInputTask_shaped (l := []) h hq hchained.take_first
      simp only [hslot, Option.map_some, show tq.input.get .head = some p.1 from hhead]
      refine ⟨_, rfl, ?_⟩
      simp only [Spec.step, hq, List.eraseP_cons, List.find?_cons, hw, hc, Bool.not_false]
      exact ⟨hs, by simp [ht]⟩
    | true =>
      obtain ⟨r, z, m, hrun, hr, hz, hm⟩ := exists_run (fun p : ℕ × Task => isOob p.2) p q
      rw [hrun] at hq
      rw [hq] at hchained
      have hzc : how'.other (isOob z.2) = true := by rw [hz]; exact hc
      have hno : ∀ x ∈ r ++ [z], wanted s.disableOob how x = false := by
        intro x hx
        have hx' : isOob x.2 = isOob z.2 := by
          rcases List.mem_append.mp hx with hx | hx
          · exact hr x hx
          · rw [List.mem_singleton.mp hx]
        rw [hw, hx', hzc]
        rfl
      have hitail : tq.itail.head = some z.1 := by
        rw [hchained.itail.head_eq, tails_run hr]
        exact tails_head hm
      have hslot : takeSlot how' p.1 tq = some (.next z.1) := by
        simp [takeSlot, hp, hc, hitail]
      have hget : tq.input.get (.next z.1) = (m.map Prod.fst).head? := by
        have := hchained.input
        rw [List.map_append, List.map_cons] at this
        exact this.next_eq
      have happ : s.queue = (r ++ [z]) ++ m := by simp [hq]
      have hfind : s.queue.find? (wanted s.disableOob how) =
          m.find? (wanted s.disableOob how) := by
        rw [happ, List.find?_append, List.find?_eq_none.mpr fun x hx => by simp [hno x hx]]
        rfl
      have herase : s.queue.eraseP (wanted s.disableOob how) =
          (r ++ [z]) ++ m.eraseP (wanted s.disableOob how) := by
        rw [happ, List.eraseP_append_right _ fun x hx => by simp [hno x hx]]
      simp only [hslot, Option.map_some, hget]
      cases m with
      | nil =>
        refine ⟨_, rfl, ?_⟩
        simp only [Spec.step, hfind, herase, List.eraseP_nil, List.find?_nil, ← happ]
        exact ⟨h, rfl⟩
      | cons b m =>
        have hb : isOob b.2 ≠ isOob z.2 := hm b rfl
        have hwb : wanted s.disableOob how b = true := by
          rw [hw, other_congr hzc hb]
          rfl
        have htake := hchained.take_second (t := b.1) (T := b.2) hr hb
        obtain ⟨hs, ht⟩ := takeInputTask_shaped (l := r ++ [z]) (m := m) (t := b.1) (T := b.2) h
          happ (by simpa using htake)
        refine ⟨_, rfl, ?_⟩
        simp only [Spec.step, hfind, herase, List.eraseP_cons, List.find?_cons, hwb]
        exact ⟨hs, by simp [ht]⟩

theorem step_shaped {s : Spec} (h : Shaped tq s) (op : Op) :
    ∃ tq', step tq op = some (tq', (s.step op).2) ∧ Shaped tq' (s.step op).1 := by
  cases op with
  | enqueue input atFront binary =>
    obtain ⟨tq', he, h'⟩ := enqueueInputTask_shaped h input atFront binary
    exact ⟨tq', by simp only [step, he]; rfl, h'⟩
  | dequeue how =>
    obtain ⟨r, hr, h', hout⟩ := dequeueInputTask_shaped h how
    exact ⟨r.2, by simp only [step, hr, Option.map_some, hout], h'⟩
  | setDisableOob b =>
    exact ⟨_, rfl, ⟨⟨h.chained.input, h.chained.lastInput, h.chained.itail, h.chained.lastItail,
      h.chained.tasks⟩, h.total, rfl, h.fresh, h.live⟩⟩
  | setFlags connected holdInput reading inputSuspended =>
    exact ⟨_, rfl, ⟨⟨h.chained.input, h.chained.lastInput, h.chained.itail, h.chained.lastItail,
      h.chained.tasks⟩, h.total, h.disableOob, h.fresh, h.live⟩⟩

theorem run_shaped {s : Spec} (ops : List Op) (h : Shaped tq s) :
    ∃ tq', run ops tq = some (tq', (Spec.run ops s).2) ∧ Shaped tq' (Spec.run ops s).1 := by
  induction ops generalizing tq s with
  | nil => exact ⟨tq, rfl, h⟩
  | cons op ops ih =>
    obtain ⟨tq1, hstep, h1⟩ := step_shaped h op
    obtain ⟨tq', hrun, h'⟩ := ih h1
    exact ⟨tq', by simp [run, hstep, hrun, Spec.run], h'⟩

/-- The tasks an operation hands out and those that stay are the tasks that were there and the
task it brings. -/
theorem Spec.step_perm (s : Spec) (op : Op) :
    ((s.step op).2.toList.map Prod.fst ++ (s.step op).1.queue.map Prod.fst).Perm
      (s.queue.map Prod.fst ++ List.range' s.fresh ((s.step op).1.fresh - s.fresh)) := by
  cases op with
  | enqueue input atFront binary =>
    cases atFront with
    | false => simp [Spec.step]
    | true =>
      simp only [Spec.step, Option.toList_none, List.map_nil, List.nil_append, if_true,
        List.map_cons, Nat.add_sub_cancel_left, List.range'_one]
      exact (List.perm_append_singleton _ _).symm
  | dequeue how =>
    simp only [Spec.step, Nat.sub_self, List.range'_zero, List.append_nil]
    cases hf : s.queue.find? (wanted s.disableOob how) with
    | none =>
      rw [List.eraseP_of_forall_not (List.find?_eq_none.mp hf)]
      simp
    | some p =>
      obtain ⟨hp, l, m, hl, hno⟩ := List.find?_eq_some_iff_append.mp hf
      have herase : s.queue.eraseP (wanted s.disableOob how) = l ++ m := by
        rw [hl, List.eraseP_append_right _ fun x hx => by simpa using hno x hx,
          List.eraseP_cons_of_pos hp]
      rw [herase, hl]
      simpa using List.perm_middle.symm
  | setDisableOob b => simp [Spec.step]
  | setFlags connected holdInput reading inputSuspended => simp [Spec.step]

theorem Spec.step_fresh (s : Spec) (op : Op) : s.fresh ≤ (s.step op).1.fresh := by
  cases op <;> simp [Spec.step]

theorem Spec.run_perm (ops : List Op) (s : Spec) :
    s.fresh ≤ (Spec.run ops s).1.fresh ∧
      ((Spec.run ops s).2.map Prod.fst ++ (Spec.run ops s).1.queue.map Prod.fst).Perm
        (s.queue.map Prod.fst ++ List.range' s.fresh ((Spec.run ops s).1.fresh - s.fresh)) := by
  induction ops generalizing s with
  | nil => simp [Spec.run]
  | cons op ops ih =>
    obtain ⟨hle, hp⟩ := ih (s.step op).1
    have hstep := s.step_perm op
    have hfresh := s.step_fresh op
    refine ⟨hfresh.trans hle, ?_⟩
    simp only [Spec.run, List.map_append, List.append_assoc]
    refine (hp.append_left _).trans ?_
    rw [← List.append_assoc]
    refine (hstep.append_right _).trans ?_
    have hrange : List.range' s.fresh ((s.step op).1.fresh - s.fresh) ++
        List.range' (s.step op).1.fresh
          ((Spec.run ops (s.step op).1).1.fresh - (s.step op).1.fresh) =
        List.range' s.fresh ((Spec.run ops (s.step op).1).1.fresh - s.fresh) := by
      have happ := List.range'_append_1 (s := s.fresh) (m := (s.step op).1.fresh - s.fresh)
        (n := (Spec.run ops (s.step op).1).1.fresh - (s.step op).1.fresh)
      rw [Nat.add_sub_cancel' hfresh] at happ
      rw [happ]
      congr 1
      omega
    rw [List.append_assoc, hrange]

theorem newTqueue_shaped : Shaped newTqueue ⟨[], false, 0⟩ :=
  ⟨⟨⟨trivial, rfl, List.nodup_nil⟩, rfl, ⟨trivial, rfl, List.nodup_nil⟩, rfl, by simp⟩,
    rfl, rfl, rfl, by simp⟩

theorem Spec.step_bytes (s : Spec) (op : Op) :
    ((s.step op).1.queue.map (·.2.length)).sum ≤ (s.queue.map (·.2.length)).sum+op.bytes := by
  cases op with
  | enqueue input atFront binary =>
    cases atFront with
    | false => simp [Spec.step, Op.bytes, newInputTask]
    | true => simp [Spec.step, Op.bytes, newInputTask, Nat.add_comm]
  | dequeue how =>
    exact ((List.eraseP_sublist (l := s.queue)).map _).sum_le_sum fun x _ => Nat.zero_le x
  | setDisableOob b => rfl
  | setFlags connected holdInput reading inputSuspended => rfl

theorem Spec.run_bytes (ops : List Op) (s : Spec) :
    ((Spec.run ops s).1.queue.map (·.2.length)).sum ≤
      (s.queue.map (·.2.length)).sum+(ops.map Op.bytes).sum := by
  induction ops generalizing s with
  | nil => rfl
  | cons op ops ih =>
    have hstep := s.step_bytes op
    have hrun := ih (s.step op).1
    rw [List.map_cons, List.sum_cons]
    show ((Spec.run ops (s.step op).1).1.queue.map (·.2.length)).sum ≤ _
    omega

/-- As long as fewer than `2^31` bytes came in, the length of the input waiting is an `int`. -/
theorem totalInputLength_fits {ops : List Op} (hn : (ops.map Op.bytes).sum < 2^31)
    {r : TQueue × List (ℕ × Task)} (hr : run ops newTqueue = some r) :
    0 ≤ r.1.totalInputLength ∧ r.1.totalInputLength < 2^31 := by
  obtain ⟨tq, hrun, hs⟩ := run_shaped ops newTqueue_shaped
  cases hr.symm.trans hrun
  have hbytes := Spec.run_bytes ops ⟨[], false, 0⟩
  have hcast : ((Spec.run ops ⟨[], false, 0⟩).1.queue.map fun p => (p.2.length : ℤ)).sum =
      (((Spec.run ops ⟨[], false, 0⟩).1.queue.map (·.2.length)).sum : ℕ) := by
    rw [Nat.cast_list_sum, List.map_map]
    rfl
  rw [hs.total, hcast]
  rw [List.map_nil, List.sum_nil] at hbytes
  omega

/-- Every run of the code hands out what the list of tasks would, keeps its two chains and its
counter in step with it, and every task that came in was handed out once or still waits. -/
theorem inputQueue_of_run (ops : List Op) :
    ∃ tq, run ops newTqueue = some (tq, (Spec.run ops ⟨[], false, 0⟩).2) ∧
      Shaped tq (Spec.run ops ⟨[], false, 0⟩).1 ∧
      ((Spec.run ops ⟨[], false, 0⟩).2.map Prod.fst ++
        (Spec.run ops ⟨[], false, 0⟩).1.queue.map Prod.fst).Perm
          (List.range (Spec.run ops ⟨[], false, 0⟩).1.fresh) := by
  obtain ⟨tq, hrun, hs⟩ := run_shaped ops newTqueue_shaped
  refine ⟨tq, hrun, hs, ?_⟩
  have hperm := (Spec.run_perm ops ⟨[], false, 0⟩).2
  rw [List.range_eq_range']
  simpa using hperm

end LambdaMoo.Input
