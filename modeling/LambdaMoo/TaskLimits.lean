import LambdaMoo.TaskAccounts

/-!
# Exact counts and the limit on queued tasks

The tasks that become ready, run or are freed, the login that takes over a
queue, and then every run of the operations: the counts stay exact, so the
limit on queued tasks refuses a task exactly when it should.
-/

set_option autoImplicit false

namespace LambdaMoo.Tasks
open LambdaMoo.Input (How)

namespace Server

variable {s s' : Server} {q : ℕ}

theorem Woken.same_enqueueBg (hw : Woken q s s') (t : Task) :
    SameBooks (s.enqueueBgTask q t) (s'.enqueueBgTask q t) := by
  have hs := hw.same
  refine ⟨hs.live, hs.waiting, ?_, ?_, ?_, ?_, fun p hp => .inl (hw.phase ▸ hp), hs.next⟩
  · intro p
    unfold enqueueBgTask
    rw [modify_field TQueue.player fun _ => by rfl, modify_field TQueue.player fun _ => by rfl]
    exact hs.player p
  · intro p
    by_cases hpq : p = q
    · subst hpq
      unfold enqueueBgTask
      rw [modify_self, modify_self]
      exact congrArg (· ++ [t]) (hs.bg p)
    · unfold enqueueBgTask
      rw [modify_of_ne _ _ hpq, modify_of_ne _ _ hpq]
      exact hs.bg p
  · intro p
    unfold enqueueBgTask
    rw [modify_field TQueue.numBgTasks fun _ => by rfl,
      modify_field TQueue.numBgTasks fun _ => by rfl]
    exact hs.numBgTasks p
  · intro p
    unfold enqueueBgTask
    rw [modify_field TQueue.connected fun _ => by rfl,
      modify_field TQueue.connected fun _ => by rfl]
    exact hs.connected p

/-- The queue of a waiting task is there. -/
theorem Obtained.counted_ready {flush : Option Str} {t u : Task} {ts : List Task}
    (ho : Obtained flush t.progr s (s.obtainTqueue flush t.progr)) (h : Counted s) (hs : Shape s)
    (hperm : s.waiting.Perm (t::ts)) (hu : u.progr = t.progr)
    (hw : ({(s.obtainTqueue flush t.progr).2 with waiting := ts}).ensureUsage
      (s.obtainTqueue flush t.progr).1 = .ok s') :
    Counted (s'.enqueueBgTask (s.obtainTqueue flush t.progr).1 u) := by
  have h1 := h.obtain hs flush t.progr
  have hp1 : (s.obtainTqueue flush t.progr).2.waiting.Perm (t::ts) := by
    rw [ho.waiting]
    exact hperm
  have h2 := h1.ready hp1 ho.mem ho.whose hu
  have hs2 : Shape {(s.obtainTqueue flush t.progr).2 with waiting := ts} :=
    (ho.shape.keeps_waiting ts).1
  exact h2.same ((hs2.ensureUsage hw).same_enqueueBg u)

theorem replaceValue_progr (id : ℤ) (value : Var) (ts : List Task) :
    (replaceValue id value ts).map Task.progr = ts.map Task.progr := by
  have hts := congrArg (List.map Task.progr) (List.takeWhile_append_dropWhile
    (p := fun t => !isSuspended id t) (l := ts))
  unfold replaceValue
  rw [← hts, List.map_append, List.map_append]
  congr 1
  split
  · next h => rw [h]
  · next t us h =>
    rw [h]
    rfl

theorem replaceValue_counted (h : Counted s) (hq : q ∈ s.live) (hne : (s.queue q).bg ≠ [])
    (id : ℤ) (value : Var) :
    Counted (s.modify q fun tq => {tq with bg := replaceValue id value tq.bg}) := by
  have hm := replaceValue_progr id value (s.queue q).bg
  show Counted {s.modify q (fun tq => {tq with bg := replaceValue id value tq.bg}) with
    waiting := s.waiting}
  refine h.change hq (fun _ => by rfl) (fun _ => by rfl) (fun _ _ => rfl) ?_ ?_
    (h.alone hq (.inl hne))
  · have hl := congrArg List.length hm
    rw [List.length_map, List.length_map] at hl
    show (s.queue q).numBgTasks = (replaceValue id value (s.queue q).bg).length+_
    rw [hl]
    exact h.count q hq
  · intro t ht
    have hp : t.progr ∈ (s.queue q).bg.map Task.progr := hm ▸ List.mem_map_of_mem ht
    obtain ⟨u, hu, hut⟩ := List.mem_map.mp hp
    exact hut ▸ h.owned q hq u hu

theorem doResume_counted (h : Counted s) (hs : Shape s) {flush : Option Str} {id : ℤ} {value : Var}
    {progr : ℤ} {wizard : Bool} {now : ℤ} {r : Err × Server}
    (hr : s.doResume flush id value progr wizard now = .ok r) : Counted r.2 := by
  unfold doResume at hr
  split at hr
  · next t hf =>
    have hid : t.id = id := by
      have := List.find?_some hf
      simp only [isSuspended, Bool.and_eq_true, decide_eq_true_eq] at this
      exact this.2
    subst hid
    split at hr
    · cases hr
      exact h
    · obtain ⟨s₁, hw, hr⟩ := bind_ok.mp hr
      cases hr
      obtain ⟨s₂, hw₂, he⟩ := bind_ok.mp hw
      cases he
      have ho := hs.obtain flush t.progr
      apply ho.counted_ready h hs (perm_eraseP hf) _ _
      · rfl
      · rw [← ho.waiting]
        exact hw₂
  · split at hr
    · next q hf =>
      split at hr
      · cases hr
        exact h
      · cases hr
        have hq : q ∈ s.live := (hs.live q).mpr (.inr (List.mem_of_find?_eq_some hf))
        have hne : (s.queue q).bg ≠ [] := by
          intro he
          have := List.find?_some hf
          simp [he] at this
        exact replaceValue_counted h hq hne id value
    · cases hr
      exact h

theorem wake_counted (flush : Option Str) (now : ℤ) (ts : List Task) (h : Counted s)
    (hs : Shape s) (hw : s.waiting = ts) (hr : s.wake flush now ts = .ok s') : Counted s' := by
  induction ts generalizing s with
  | nil =>
    cases hr
    rw [← hw]
    exact h
  | cons t ts ih =>
    unfold wake at hr
    split at hr
    · obtain ⟨s₁, hw₁, hr⟩ := bind_ok.mp hr
      have ho := hs.obtain flush t.progr
      have hk := (ho.shape.keeps_waiting ts).1
      have h1 := ho.counted_ready (u := t) h hs (hw ▸ List.Perm.refl _) rfl hw₁
      exact ih h1 ((hk.keeps_enqueueBg hw₁ t).1) (hk.ensureUsage hw₁).waiting hr
    · cases hr
      rw [← hw]
      exact h

/-- Where the main loop goes next is no concern of the counts. -/
theorem SameBooks.phase (s : Server) (phase : Phase) (id : ℤ)
    (hp : ∀ q, phase = .login q → (s.queue q).player < 0) :
    SameBooks s {s with phase := phase, currentTaskId := id} :=
  ⟨Eq.refl _, Eq.refl _, fun _ => Eq.refl _, fun _ => Eq.refl _, fun _ => Eq.refl _,
    fun _ hc => hc, fun q hq => .inr (hp q hq), Eq.refl _⟩

theorem SameBooks.task (s : Server) (q : ℕ) (id : ℤ) :
    SameBooks s {s with phase := .task q, currentTaskId := id} :=
  SameBooks.phase s (.task q) id fun _ hp => by cases hp

theorem runInput_same (q : ℕ) (t : Input.Task) (parses : Bool) (newId : ℤ) (s : Server) :
    SameBooks s (s.runInput q t parses newId) := by
  unfold runInput
  split
  · exact SameBooks.task s q newId
  · split
    · exact (killReading_same q s).trans (SameBooks.task _ q _)
    · split
      · next hn =>
        apply SameBooks.phase s (.login q) newId
        intro p hp
        cases hp
        exact hn
      · split
        · exact SameBooks.task s q newId
        · exact SameBooks.rfl

/-- Nor is the usage of a queue, or the list that it is on. -/
theorem SameBooks.relist (s : Server) (q : ℕ) (u : TQueue → ℤ) (idle active : List ℕ)
    (phase : Phase) (hp : ∀ q, phase = .login q → s.phase = .login q) :
    SameBooks s {s.modify q fun tq => {tq with usage := u tq} with
      idle := idle, active := active, phase := phase} := by
  have hm := SameBooks.modify s q (f := fun tq => {tq with usage := u tq}) (fun _ => by rfl)
    (fun _ => by rfl) (fun _ => by rfl) (fun _ => by exact fun hc => hc)
  exact ⟨hm.live, hm.waiting, hm.player, hm.bg, hm.numBgTasks, hm.connected,
    fun p h => .inl (hp p h), hm.next⟩

theorem deactivate_same (q : ℕ) (qs : List ℕ) (s : Server) :
    SameBooks s (({s with active := qs}).deactivateTqueue q) :=
  SameBooks.relist s q (fun _ => noUsage) (q::s.idle) qs s.phase fun _ => id

theorem finish_same (q : ℕ) (elapsed : ℤ) (s : Server) : SameBooks s (s.finish q elapsed) :=
  SameBooks.relist s q (fun tq => tq.usage+elapsed) s.idle _ .rest fun _ hp => by cases hp

theorem dispatch_counted (h : Counted s) (hs : Shape s) (parses : Bool) (newId : ℤ) :
    Counted (s.dispatch parses newId) := by
  unfold dispatch
  split
  · exact h
  · next q qs ha =>
    have hq : q ∈ s.live := (hs.live q).mpr (.inr (by simp [ha]))
    dsimp only
    split
    · exact h.same ((killReading_same q s).trans (SameBooks.task _ q _))
    · split
      · next t s₁ hd =>
        have hsame := dequeueInputTask_same (if (s.queue q).holdInput &&
          !(s.queue q).reading.isSome then .oob else .first) q s
        rw [hd] at hsame
        exact h.same (hsame.trans (runInput_same q t parses newId s₁))
      · cases hb : (s.queue q).bg with
        | nil =>
          rw [dequeueBgTask_nil hb]
          exact h.same (deactivate_same q qs s)
        | cons t ts =>
          rw [dequeueBgTask_cons hb]
          have hperm : (s.queue q).bg.Perm (t::ts) := by rw [hb]
          have hl := h.leave hq hperm (f := fun tq => decrement {tq with bg := ts}) rfl
            (fun _ => rfl) (fun _ => rfl)
          exact hl.same (SameBooks.task _ q t.id)

/-- A queue that is freed has no tasks, here or waiting. -/
theorem freeTqueue_counted (h : Counted s) (hs : Shape s) (hn : (s.queue q).numBgTasks = 0) :
    Counted (s.freeTqueue q) := by
  have hsub : ∀ p ∈ (s.freeTqueue q).live, p ∈ s.live := fun p hp => List.mem_of_mem_erase hp
  refine ⟨fun p hp => h.count p (hsub p hp), fun p hp => h.owned p (hsub p hp), ?_, ?_,
    fun p hp => h.somebody p (hsub p hp), h.login, h.next⟩
  · intro t ht
    obtain ⟨p, hp, hpt⟩ := h.home t ht
    have hpq : p ≠ q := by
      intro he
      have hc := h.count p hp
      have hpos : 0 < tasksOf s.waiting (s.queue p).player := tasksOf_pos.mpr ⟨t, ht, hpt.symm⟩
      rw [he, hn] at hc
      rw [he] at hpos
      omega
    exact ⟨p, hs.single.mem_erase_iff.mpr ⟨hpq, hp⟩, hpt⟩
  · intro p hp r hr hne he
    obtain ⟨hno, hnone⟩ := h.unique p (hsub p hp) r (hsub r hr) hne he
    exact ⟨hno, hnone.waiting, fun x hx => hnone.bg x (hsub x hx)⟩

theorem freeSpent_counted (qs : List ℕ) (h : Counted s) (hs : Shape s) (hn : qs.Nodup)
    (hq : ∀ q ∈ qs, q ∈ s.idle) : Counted (s.freeSpent qs) := by
  induction qs generalizing s with
  | nil => exact h
  | cons q qs ih =>
    rw [freeSpent]
    split
    · next hspent =>
      have hk := freeTqueue_keeps hs (hq q (by simp))
      have hnum : (s.queue q).numBgTasks = 0 := by
        simp only [isSpent, Bool.and_eq_true, decide_eq_true_eq] at hspent
        exact hspent.2
      apply ih (freeTqueue_counted h hs hnum) hk.1 hn.of_cons
      intro p hp
      have hpq : p ≠ q := fun he => (List.nodup_cons.mp hn).1 (he ▸ hp)
      exact (hs.idle_nodup.mem_erase_iff).mpr ⟨hpq, hq p (by simp [hp])⟩
    · exact ih h hs hn.of_cons fun p hp => hq p (by simp [hp])

end Server

end LambdaMoo.Tasks
