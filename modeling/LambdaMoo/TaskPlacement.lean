import LambdaMoo.TaskKeeps

/-!
# Where the task queues are

The main loop and the login of a connection, and what every run of the
operations keeps: each queue is on exactly one list, and a queue with something
to run is on the active one. The exception is a connection that logs in while
its own queue has background tasks that are ready: they go to a queue that is
left on the idle list.
-/

set_option autoImplicit false

namespace LambdaMoo.Tasks
open LambdaMoo.Input (How)

namespace Server

variable {s s' : Server} {q : ℕ}

/-- The start of a task of the first queue. -/
theorem Shape.keeps_phase (h : Shape s) (phase : Phase) (id : ℤ)
    (hp : ∀ q, phase.queue = some q → s.active.head? = some q) :
    Keeps s {s with phase := phase, currentTaskId := id} :=
  ⟨⟨h.nodup, h.live, h.single, h.usage, h.fresh, hp⟩, fun hs => hs⟩

theorem runInput_keeps (h : Shape s) (ha : s.active.head? = some q) (t : Input.Task)
    (parses : Bool) (newId : ℤ) : Keeps s (s.runInput q t parses newId) := by
  have htask : ∀ p, (Phase.task q).queue = some p → s.active.head? = some p := by
    intro p hp
    cases hp
    exact ha
  unfold runInput
  split
  · exact h.keeps_phase (.task q) newId htask
  · split
    · next id _ =>
      have hk := killReading_keeps h q
      exact hk.trans (hk.1.keeps_phase (.task q) id htask)
    · split
      · exact h.keeps_phase (.login q) newId htask
      · split
        · exact h.keeps_phase (.task q) newId htask
        · exact Keeps.rfl h

theorem dequeueInputTask_none {how : How} (h : (s.dequeueInputTask how q).1 = none) :
    ∀ t ∈ (s.queue q).input, asked (s.queue q).disableOob how t = false := by
  unfold dequeueInputTask at h
  dsimp only at h
  split at h
  · next hf => simpa using hf
  · cases h

/-- Where no line is handed out and there is no background task, there is nothing to run. -/
theorem not_ready_of_none (hb : (s.queue q).bg = [])
    (h : (s.dequeueInputTask (if (s.queue q).holdInput && !(s.queue q).reading.isSome then .oob
      else .first) q).1 = none) : ¬Ready (s.queue q) := by
  have hn := dequeueInputTask_none h
  rintro (hb' | ⟨hi, hd⟩)
  · exact hb' hb
  · obtain ⟨t, ht⟩ := List.exists_mem_of_ne_nil _ hi
    have hc : ((s.queue q).holdInput && !(s.queue q).reading.isSome) = true := by
      by_contra hc
      rw [if_neg hc] at hn
      exact absurd (hn t ht) (by simp [asked])
    rw [if_pos hc] at hn
    simp only [Bool.and_eq_true, Bool.not_eq_true'] at hc
    rcases hd with hhold | hread | ⟨hdis, u, hu, huo⟩
    · exact absurd (hhold.symm.trans hc.1) (by simp)
    · exact absurd (hread.symm.trans hc.2) (by simp)
    · exact absurd (hn u hu) (by simp [asked, hdis, huo])

theorem dequeueInputTask_active (how : How) (q : ℕ) (s : Server) :
    (s.dequeueInputTask how q).2.active = s.active := by
  unfold dequeueInputTask
  dsimp only
  split
  · rfl
  · rfl

/-- The first queue is put aside when it has nothing to run. -/
theorem Shape.keeps_deactivate (h : Shape s) {qs : List ℕ} (ha : s.active = q::qs)
    (hp : s.phase = .rest) (hr : ¬Ready (s.queue q)) :
    Keeps s (({s with active := qs}).deactivateTqueue q) := by
  have hq : q ∈ s.active := ha ▸ List.mem_cons_self
  refine ⟨⟨?_, ?_, h.single, ?_, h.fresh, ?_⟩, ?_⟩
  · have hn := h.nodup
    rw [ha] at hn
    exact List.perm_middle.nodup_iff.mp hn
  · intro p
    show p ∈ s.live ↔ p ∈ q::s.idle ∨ p ∈ qs
    rw [h.live, ha]
    simp only [List.mem_cons]
    tauto
  · intro p hpi
    show (Function.update s.queue q _ p).usage = noUsage
    by_cases hpq : p = q
    · simp [hpq]
    · rw [Function.update_of_ne hpq]
      exact h.usage p ((List.mem_cons.mp hpi).resolve_left hpq)
  · intro p hpq
    change s.phase.queue = some p at hpq
    rw [hp] at hpq
    cases hpq
  · intro hs p hpi
    show ¬Ready (Function.update s.queue q _ p)
    by_cases hpq : p = q
    · subst hpq
      rw [Function.update_self]
      exact hr
    · rw [Function.update_of_ne hpq]
      exact hs p ((List.mem_cons.mp hpi).resolve_left hpq)

theorem dequeueBgTask_nil (hb : (s.queue q).bg = []) : s.dequeueBgTask q = (none, s) := by
  simp [dequeueBgTask, hb]

theorem dequeueBgTask_cons {t : Task} {ts : List Task} (hb : (s.queue q).bg = t::ts) :
    s.dequeueBgTask q = (some t, s.modify q fun tq => decrement {tq with bg := ts}) := by
  simp [dequeueBgTask, hb, decrement]

theorem dequeueBgTask_keeps (h : Shape s) {t : Task} {ts : List Task}
    (hb : (s.queue q).bg = t::ts) :
    Keeps s (s.modify q fun tq => decrement {tq with bg := ts}) := by
  apply h.keeps_modify q
  · exact fun _ => by rfl
  · intro _
    exact .inl (by simp [hb])

theorem dispatch_keeps (h : Shape s) (hp : s.phase = .rest) (parses : Bool) (newId : ℤ) :
    Keeps s (s.dispatch parses newId) := by
  unfold dispatch
  split
  · exact Keeps.rfl h
  · next q qs ha =>
    have hhead : s.active.head? = some q := by simp [ha]
    have htask : ∀ p, (Phase.task q).queue = some p → s.active.head? = some p := by
      intro p hp
      cases hp
      exact hhead
    dsimp only
    split
    · next _ id _ _ =>
      have hk := killReading_keeps h q
      exact hk.trans (hk.1.keeps_phase (.task q) id htask)
    · split
      · next t s₁ hd =>
        have hk := dequeueInputTask_keeps h (if (s.queue q).holdInput && !(s.queue q).reading.isSome
          then .oob else .first) q
        rw [hd] at hk
        have ha₁ : s₁.active.head? = some q := by
          rw [← hhead, ← dequeueInputTask_active _ q s, hd]
        exact hk.trans (runInput_keeps hk.1 ha₁ t parses newId)
      · next _ hd =>
        cases hb : (s.queue q).bg with
        | nil =>
          rw [dequeueBgTask_nil hb]
          apply h.keeps_deactivate ha hp
          exact not_ready_of_none hb (by rw [hd])
        | cons t ts =>
          rw [dequeueBgTask_cons hb]
          have hk := dequeueBgTask_keeps h hb
          exact hk.trans (hk.1.keeps_phase (.task q) t.id htask)

theorem finish_keeps (h : Shape s) (hp : s.phase = .task q) (elapsed : ℤ) :
    Keeps s (s.finish q elapsed) := by
  have hhead : s.active.head? = some q := h.head q (by rw [hp]; rfl)
  obtain ⟨qs, ha⟩ : ∃ qs, s.active = q::qs := by
    cases ha : s.active with
    | nil => simp [ha] at hhead
    | cons a as => exact ⟨as, by simpa [ha] using hhead⟩
  have hd : (s.active.dropWhile (· ≠ q)).drop 1 = qs := by simp [ha]
  have hq : q ∉ s.idle := fun hi => h.disjoint hi (by simp [ha])
  have hn := h.nodup
  rw [ha] at hn
  unfold finish
  rw [hd]
  refine ⟨⟨?_, ?_, h.single, ?_, h.fresh, ?_⟩, ?_⟩
  · exact ((activateTqueue_perm q _).append_left _).nodup_iff.mpr hn
  · intro p
    show p ∈ s.live ↔ p ∈ s.idle ∨ p ∈ (activateTqueue q _).active
    rw [activateTqueue_mem, h.live, ha, List.mem_cons]
    rfl
  · intro p hpi
    show (Function.update s.queue q _ p).usage = noUsage
    have hne : p ≠ q := by
      intro he
      exact hq (he ▸ hpi)
    rw [Function.update_of_ne hne]
    exact h.usage p hpi
  · intro p hpq
    cases hpq
  · intro hs p hpi
    show ¬Ready (Function.update s.queue q _ p)
    have hne : p ≠ q := by
      intro he
      exact hq (he ▸ hpi)
    rw [Function.update_of_ne hne]
    exact hs p hpi

theorem freeTqueue_keeps (h : Shape s) (hq : q ∈ s.idle) : Keeps s (s.freeTqueue q) := by
  have hmem : ∀ p, p ∈ s.idle.erase q ↔ p ≠ q ∧ p ∈ s.idle := fun p =>
    h.idle_nodup.mem_erase_iff
  refine ⟨⟨?_, ?_, h.single.erase q, ?_, ?_, h.head⟩, ?_⟩
  · exact h.nodup.sublist (List.erase_sublist.append_right _)
  · intro p
    show p ∈ s.live.erase q ↔ p ∈ s.idle.erase q ∨ p ∈ s.active
    rw [h.single.mem_erase_iff, hmem, h.live]
    by_cases hpq : p = q
    · subst hpq
      simp [h.disjoint hq]
    · simp [hpq]
  · intro p hp
    exact h.usage p ((hmem p).mp hp).2
  · intro p hp
    exact h.fresh p (h.single.mem_erase_iff.mp hp).2
  · intro hs p hp
    exact hs p ((hmem p).mp hp).2

theorem freeSpent_keeps (qs : List ℕ) (h : Shape s) (hn : qs.Nodup) (hq : ∀ q ∈ qs, q ∈ s.idle) :
    Keeps s (s.freeSpent qs) := by
  induction qs generalizing s with
  | nil => exact Keeps.rfl h
  | cons q qs ih =>
    rw [freeSpent]
    split
    · have hk := freeTqueue_keeps h (hq q (by simp))
      apply hk.trans
      apply ih hk.1 hn.of_cons
      intro p hp
      have hpq : p ≠ q := fun he => (List.nodup_cons.mp hn).1 (he ▸ hp)
      exact (h.idle_nodup.mem_erase_iff).mpr ⟨hpq, hq p (by simp [hp])⟩
    · exact ih h hn.of_cons fun p hp => hq p (by simp [hp])

theorem moveBg_shape (h : Shape s) (source target : ℕ) : Shape (s.moveBg source target) := by
  unfold moveBg
  exact (h.modify source fun _ => by rfl).modify target fun _ => by rfl

/-- Tasks may be moved to a queue that is active; where there are none, to any. -/
theorem moveBg_served (hs : Served s) (source target : ℕ)
    (ht : target ∉ s.idle ∨ (s.queue source).bg = []) : Served (s.moveBg source target) := by
  have h1 : Served (s.modify source fun tq =>
      {tq with bg := [], numBgTasks := tq.numBgTasks-(s.queue source).bg.length}) :=
    hs.modify fun hr => ready_of_fewer (fun _ => by rfl) hr
  rcases ht with hi | hb
  · exact ((h1.but target).modify _).served fun hq => absurd hq hi
  · apply h1.modify
    intro hr
    rw [hb, List.append_nil] at hr
    rw [hb]
    exact hr

theorem leaveTasks_shape (h : Shape s) (flush : Option Str) (q : ℕ) (oldPlayer : ℤ) :
    Shape (s.leaveTasks flush q oldPlayer) := by
  unfold leaveTasks
  split
  · have ho := (h.keeps_obtain flush oldPlayer).1
    exact (moveBg_shape (ho.modify _ fun _ => by rfl) q _).modify q fun _ => by rfl
  · exact h

/-- What a connection that logs in leaves behind is waiting, not ready. -/
def Bare (tq : TQueue) : Prop := tq.numBgTasks = 0 ∨ tq.bg = []

theorem leaveTasks_served (h : Shape s) (hs : Served s) (flush : Option Str) (oldPlayer : ℤ)
    (hq : q ∈ s.live) (hb : Bare (s.queue q)) : Served (s.leaveTasks flush q oldPlayer) := by
  unfold leaveTasks
  split
  · next hn =>
    have ho := h.obtain flush oldPlayer
    have hbg : ((s.obtainTqueue flush oldPlayer).2.queue q).bg = [] := by
      rw [ho.queue q hq]
      exact hb.resolve_left hn
    have h1 := (ho.served h hs).modify (q := (s.obtainTqueue flush oldPlayer).1)
      (f := fun tq => {tq with numBgTasks := (s.queue q).numBgTasks}) id
    have h2 := moveBg_served h1 q (s.obtainTqueue flush oldPlayer).1
      (.inr (by rw [modify_field TQueue.bg fun _ => by rfl]; exact hbg))
    exact h2.modify id
  · exact hs

theorem takeOver_shape (h : Shape s) (q dead : ℕ) : Shape (s.takeOver q dead) := by
  unfold takeOver flushInput
  exact (moveBg_shape ((h.modify q fun _ => by rfl).modify dead fun _ => by rfl) dead q).modify
    dead fun _ => by rfl

theorem takeOver_served (hs : Served s) (dead : ℕ) (hq : q ∉ s.idle) :
    Served (s.takeOver q dead) := by
  have h1 := hs.modify (q := q)
    (f := fun tq => {tq with numBgTasks := (s.queue dead).numBgTasks}) id
  have h2 := h1.modify (q := dead) (f := fun tq => {tq with input := []}) not_ready_flushed
  have h3 := moveBg_served h2 dead q (.inl hq)
  exact h3.modify id

theorem leaveTasks_idle (h : Shape s) (flush : Option Str) (oldPlayer : ℤ) (hl : q ∈ s.live)
    (hq : q ∉ s.idle) : q ∉ (s.leaveTasks flush q oldPlayer).idle := by
  unfold leaveTasks
  split
  · intro hi
    rcases (h.obtain flush oldPlayer).found with ⟨-, he⟩ | ⟨-, -, -, hidle, -⟩
    · have hi' : q ∈ (s.obtainTqueue flush oldPlayer).2.idle := hi
      rw [he] at hi'
      exact hq hi'
    · have hi' : q ∈ (s.obtainTqueue flush oldPlayer).2.idle := hi
      rw [hidle] at hi'
      rcases List.mem_cons.mp hi' with he | hm
      · exact (h.fresh q hl).ne he
      · exact hq hm
  · exact hq

theorem doLogin_shape (h : Shape s) {flush : Option Str} {newPlayer : ℕ}
    (hs : s.doLogin flush q newPlayer = .ok s') : Shape s' := by
  have h1 := h.modify q (f := fun tq => {tq with player := (newPlayer:ℤ)}) fun _ => by rfl
  have h2 := leaveTasks_shape h1 flush q (s.queue q).player
  unfold doLogin at hs
  dsimp only at hs
  split at hs
  · cases hs
    exact h2
  · next d _ =>
    have h3 := takeOver_shape h2 q d
    split at hs
    · exact (freeTaskQueue_keeps h3 hs).1
    · cases hs
      exact h3

theorem doLogin_served (h : Shape s) {flush : Option Str} {newPlayer : ℕ} (hl : q ∈ s.live)
    (hi : q ∉ s.idle) (hb : Bare (s.queue q)) (hserved : Served s)
    (hs : s.doLogin flush q newPlayer = .ok s') : Served s' := by
  have h1 := h.modify q (f := fun tq => {tq with player := (newPlayer:ℤ)}) fun _ => by rfl
  have hb1 : Bare ((s.modify q fun tq => {tq with player := (newPlayer:ℤ)}).queue q) := by
    rw [modify_self]
    exact hb
  have s1 := leaveTasks_served h1 (hserved.modify id) flush (s.queue q).player hl hb1
  have i1 := leaveTasks_idle h1 flush (s.queue q).player hl hi
  unfold doLogin at hs
  dsimp only at hs
  split at hs
  · cases hs
    exact s1
  · next d _ =>
    have s2 := takeOver_served s1 d i1
    split at hs
    · exact (freeTaskQueue_keeps (takeOver_shape (leaveTasks_shape h1 flush q _) q d) hs).2 s2
    · cases hs
      exact s2

theorem freeTaskQueue_phase (h : Shape s) (hs : s.freeTaskQueue q = .ok s') :
    s'.phase = s.phase := by
  have h1 := h.modify q (f := fun tq => {tq with connected := false}) fun _ => by rfl
  unfold freeTaskQueue at hs
  dsimp only at hs
  split at hs
  · exact (h1.ensureUsage hs).phase
  · cases hs
    rfl

theorem leaveTasks_phase (h : Shape s) (flush : Option Str) (q : ℕ) (oldPlayer : ℤ) :
    (s.leaveTasks flush q oldPlayer).phase = s.phase := by
  unfold leaveTasks
  split
  · exact (h.obtain flush oldPlayer).phase
  · rfl

theorem doLogin_phase (h : Shape s) {flush : Option Str} {newPlayer : ℕ}
    (hs : s.doLogin flush q newPlayer = .ok s') : s'.phase = s.phase := by
  have h1 := h.modify q (f := fun tq => {tq with player := (newPlayer:ℤ)}) fun _ => by rfl
  have h2 := leaveTasks_shape h1 flush q (s.queue q).player
  have hp := leaveTasks_phase h1 flush q (s.queue q).player
  unfold doLogin at hs
  dsimp only at hs
  split at hs
  · cases hs
    exact hp
  · next d _ =>
    split at hs
    · exact (freeTaskQueue_phase (takeOver_shape h2 q d) hs).trans hp
    · cases hs
      exact hp

end Server

end LambdaMoo.Tasks
