import Mathlib.Data.List.TakeWhile
import LambdaMoo.TaskLists

/-!
# Operations that keep the task queues in place

An operation keeps the lists in order and leaves no more queues out of place
than it found. One rule covers the operations that change a queue and then
wake it up if there may be something to run.
-/

set_option autoImplicit false

namespace LambdaMoo.Tasks
open LambdaMoo.Input (How)

namespace Server

/-- An operation that leaves the lists in order and no more queues out of place. -/
def Keeps (s s' : Server) : Prop := Shape s' ∧ (Served s → Served s')

variable {s s' : Server} {q : ℕ}

theorem Keeps.rfl (h : Shape s) : Keeps s s := ⟨h, id⟩

theorem Keeps.trans {s'' : Server} (h : Keeps s s') (h' : Keeps s' s'') : Keeps s s'' :=
  ⟨h'.1, fun hs => h'.2 (h.2 hs)⟩

theorem Shape.keeps_modify (h : Shape s) (q : ℕ) {f : TQueue → TQueue}
    (hu : ∀ tq, (f tq).usage = tq.usage) (hr : Ready (f (s.queue q)) → Ready (s.queue q)) :
    Keeps s (s.modify q f) :=
  ⟨h.modify q hu, fun hs => hs.modify hr⟩

/-- A change of one queue that wakes the queue up where there may be something to run. -/
theorem Shape.keeps_notice (h : Shape s) (q : ℕ) {f : TQueue → TQueue} {c : Prop} [Decidable c]
    (hu : ∀ tq, (f tq).usage = tq.usage)
    (hr : ¬c → Ready (f (s.queue q)) → Ready (s.queue q))
    (hs : (if c then (s.modify q f).ensureUsage q else .ok (s.modify q f)) = .ok s') :
    Keeps s s' := by
  have hm := h.modify q hu
  split at hs
  · have hw := hm.ensureUsage hs
    exact ⟨hw.shape, fun hserved => hw.served ((hserved.but q).modify f)⟩
  · next hc =>
    cases hs
    exact h.keeps_modify q hu (hr hc)

theorem Shape.keeps_obtain (h : Shape s) (flush : Option Str) (player : ℤ) :
    Keeps s (s.obtainTqueue flush player).2 :=
  ⟨(h.obtain flush player).shape, (h.obtain flush player).served h⟩

/-- A change of what is no part of the lists or of the queues. -/
theorem Shape.keeps_waiting (h : Shape s) (ts : List Task) : Keeps s {s with waiting := ts} :=
  ⟨⟨h.nodup, h.live, h.single, h.usage, h.fresh, h.head⟩, id⟩

theorem newTaskQueue_keeps (h : Shape s) (flush : Option Str) (player : ℤ) :
    Keeps s (s.newTaskQueue flush player) := by
  have ho := h.keeps_obtain flush player
  unfold newTaskQueue
  exact ho.trans (ho.1.keeps_modify _ (fun _ => by rfl) id)

theorem newConnection_keeps (h : Shape s) (flush : Option Str) :
    Keeps s (s.newConnection flush) := by
  have h1 : Keeps s {s with nextUnconnected := s.nextUnconnected-1} :=
    ⟨⟨h.nodup, h.live, h.single, h.usage, h.fresh, h.head⟩, id⟩
  exact h1.trans (newTaskQueue_keeps h1.1 flush _)

theorem freeTaskQueue_keeps (h : Shape s) (hs : s.freeTaskQueue q = .ok s') : Keeps s s' :=
  h.keeps_notice q (fun _ => by rfl) (fun _ => id) hs

theorem setFlushCommand_keeps (h : Shape s) (q : ℕ) (cmd : Str) :
    Keeps s (s.setFlushCommand q cmd) :=
  h.keeps_modify q (fun _ => by rfl) id

theorem setHoldInput_keeps (h : Shape s) {value : Bool} (hs : s.setHoldInput q value = .ok s') :
    Keeps s s' := by
  apply h.keeps_notice q (fun _ => by rfl) _ hs
  intro hc hr
  simp only [modify_self, not_and, not_not] at hc
  simp only [Ready, Dispatchable] at hr ⊢
  cases value with
  | false => simp_all
  | true => tauto

/-- Without a second run, and with no out-of-band line in front, there is none at all. -/
theorem not_oob_of_secondRun {ts : List Input.Task} (h : secondRun ts = [])
    (hh : ¬ts.head?.any Input.isOob) : ∀ t ∈ ts, Input.isOob t = false := by
  cases ts with
  | nil => simp
  | cons t ts =>
    have ht : Input.isOob t = false := by simpa using hh
    simp only [secondRun, ht, List.dropWhile_eq_nil_iff, decide_eq_true_eq] at h
    intro u hu
    rcases List.mem_cons.mp hu with rfl | hu
    · exact ht
    · exact h u hu

theorem setDisableOob_keeps (h : Shape s) {value : Bool} (hs : s.setDisableOob q value = .ok s') :
    Keeps s s' := by
  apply h.keeps_notice q (fun _ => by rfl) _ hs
  intro hc hr
  simp only [modify_self, not_and, not_or, not_not] at hc
  rcases hr with hb | ⟨hi, hhold | hread | ⟨hoob, t, ht, hto⟩⟩
  · exact .inl hb
  · exact .inr ⟨hi, .inl hhold⟩
  · exact .inr ⟨hi, .inr (.inl hread)⟩
  · have hn := not_oob_of_secondRun (hc hoob).1 (hc hoob).2 t ht
    simp [hn] at hto

theorem enqueueInputTask_keeps (h : Shape s) {line : Str} {atFront binary : Bool}
    (hs : s.enqueueInputTask q line atFront binary = .ok s') : Keeps s s' := by
  apply h.keeps_notice q (fun _ => by rfl) _ hs
  intro hc hr
  simp only [modify_self, Bool.not_eq_true, Bool.or_eq_false_iff, Bool.not_eq_false',
    Bool.and_eq_false_iff] at hc
  obtain ⟨⟨hhold, hread⟩, hoob⟩ := hc
  rcases hr with hb | ⟨-, hhold' | hread' | ⟨hdis, t, ht, hto⟩⟩
  · exact .inl hb
  · exact absurd (hhold.symm.trans hhold') (by simp)
  · exact absurd (hread.symm.trans hread') (by simp)
  · have hnew : Input.isOob (Input.newInputTask line binary) = false := by
      apply hoob.resolve_left
      intro hd
      exact absurd (hd.symm.trans hdis) (by simp)
    have htq : t ∈ (s.queue q).input := by
      have htn : t ≠ Input.newInputTask line binary := by
        intro he
        rw [he, hnew] at hto
        cases hto
      cases atFront with
      | false => simpa [htn] using ht
      | true => simpa [htn] using ht
    exact .inr ⟨List.ne_nil_of_mem htq, .inr (.inr ⟨hdis, t, htq, hto⟩)⟩

theorem not_ready_flushed {tq : TQueue} (h : Ready {tq with input := []}) : Ready tq := by
  rcases h with hb | ⟨hi, -⟩
  · exact .inl hb
  · exact absurd rfl hi

theorem flushInput_keeps (h : Shape s) (q : ℕ) : Keeps s (s.flushInput q) :=
  h.keeps_modify q (fun _ => by rfl) not_ready_flushed

theorem newInputTask_keeps (h : Shape s) {line : Str} {binary : Bool}
    (hs : s.newInputTask q line binary = .ok s') : Keeps s s' := by
  unfold newInputTask at hs
  split at hs
  · cases hs
    exact flushInput_keeps h q
  · exact enqueueInputTask_keeps h hs

theorem forceInput_keeps (h : Shape s) {flush : Option Str} {conn : ℤ} {line : Str}
    {atFront : Bool} (hs : s.forceInput flush conn line atFront = .ok s') : Keeps s s' := by
  have ho := h.keeps_obtain flush conn
  exact ho.trans (enqueueInputTask_keeps ho.1 hs)

theorem bfFlushInput_keeps (h : Shape s) (flush : Option Str) (conn : ℤ) :
    Keeps s (s.bfFlushInput flush conn) := by
  have ho := h.keeps_obtain flush conn
  exact ho.trans (flushInput_keeps ho.1 _)

theorem enqueueWaiting_keeps (h : Shape s) (flush : Option Str) (t : Task) :
    Keeps s (s.enqueueWaiting flush t) := by
  have ho := h.keeps_obtain flush t.progr
  have hm := ho.1.keeps_modify (f := fun tq => {tq with numBgTasks := tq.numBgTasks+1})
    (s.obtainTqueue flush t.progr).1 (fun _ => by rfl) id
  exact (ho.trans hm).trans (hm.1.keeps_waiting _)

theorem enqueueTask_keeps (h : Shape s) (flush : Option Str) (limits : Limits) (t : Task) :
    Keeps s (s.enqueueTask flush limits t).2 := by
  unfold enqueueTask
  split
  · exact enqueueWaiting_keeps h flush t
  · exact Keeps.rfl h

theorem resumeTask_keeps (h : Shape s) {flush : Option Str} {id progr : ℤ} {value : Var}
    (hs : s.resumeTask flush id progr value = .ok s') : Keeps s s' := by
  have ho := h.keeps_obtain flush progr
  unfold resumeTask enqueueBgTask at hs
  apply ho.trans
  apply ho.1.keeps_notice (c := True) _ _ (fun hc => absurd trivial hc)
  · rw [if_pos trivial]
    exact hs
  · exact fun _ => by rfl

theorem ready_erase {tq : TQueue} {f : Input.Task → Bool}
    (h : Ready {tq with input := tq.input.eraseP f}) : Ready tq := by
  rcases h with hb | ⟨hi, hd⟩
  · exact .inl hb
  · have hne : tq.input ≠ [] := by
      intro he
      simp [he] at hi
    refine .inr ⟨hne, ?_⟩
    rcases hd with hhold | hread | ⟨hdis, t, ht, hto⟩
    · exact .inl hhold
    · exact .inr (.inl hread)
    · exact .inr (.inr ⟨hdis, t, List.mem_of_mem_eraseP ht, hto⟩)

theorem dequeueInputTask_keeps (h : Shape s) (how : How) (q : ℕ) :
    Keeps s (s.dequeueInputTask how q).2 := by
  unfold dequeueInputTask
  dsimp only
  split
  · exact Keeps.rfl h
  · dsimp only
    apply h.keeps_modify q
    · exact fun _ => by rfl
    · exact ready_erase

theorem readInputNow_keeps (h : Shape s) (conn : ℤ) : Keeps s (s.readInputNow conn) := by
  unfold readInputNow
  split
  · exact Keeps.rfl h
  · split
    · exact Keeps.rfl h
    · exact dequeueInputTask_keeps h .inband _

theorem makeReadingTask_keeps (h : Shape s) {player id : ℤ}
    (hs : s.makeReadingTask player id = .ok s') : Keeps s s' := by
  unfold makeReadingTask at hs
  split at hs
  · cases hs
    exact Keeps.rfl h
  · split at hs
    · cases hs
      exact Keeps.rfl h
    · apply h.keeps_notice _ (fun _ => by rfl) _ hs
      intro hc hr
      simp only [modify_self, ne_eq, not_not] at hc
      rcases hr with hb | ⟨hi, -⟩
      · exact .inl hb
      · exact absurd hc hi

theorem ready_of_no_reader {tq : TQueue} (h : Ready {tq with reading := none}) : Ready tq := by
  rcases h with hb | ⟨hi, hhold | hread | hoob⟩
  · exact .inl hb
  · exact .inr ⟨hi, .inl hhold⟩
  · cases hread
  · exact .inr ⟨hi, .inr (.inr hoob)⟩

theorem killReading_keeps (h : Shape s) (q : ℕ) : Keeps s (s.killReading q) :=
  h.keeps_modify q (fun _ => by rfl) ready_of_no_reader

theorem ready_of_fewer {tq : TQueue} {ts : List Task} (hts : tq.bg = [] → ts = [])
    (h : Ready {tq with bg := ts}) : Ready tq := by
  rcases h with hb | hd
  · exact .inl fun he => hb (hts he)
  · exact .inr hd

theorem killBg_keeps (h : Shape s) (q : ℕ) (id : ℤ) : Keeps s (s.killBg q id) := by
  apply h.keeps_modify q
  · exact fun _ => by rfl
  · intro hr
    exact ready_of_fewer (fun he => by simp [decrement, he]) hr

theorem killWaiting_keeps (h : Shape s) (t : Task) : Keeps s (s.killWaiting t) := by
  have hw := h.keeps_waiting (s.waiting.eraseP fun u => u.id = t.id)
  unfold killWaiting
  dsimp only
  split
  · exact hw.trans (hw.1.keeps_modify _ (fun _ => by rfl) id)
  · exact hw

theorem killTask_keeps (h : Shape s) (id owner : ℤ) (wizard : Bool) :
    Keeps s (s.killTask id owner wizard).2 := by
  unfold killTask
  split
  · exact Keeps.rfl h
  · split
    · split
      · exact Keeps.rfl h
      · exact killWaiting_keeps h _
    · split
      · split
        · exact Keeps.rfl h
        · exact killReading_keeps h _
      · split
        · unfold killActive
          split
          · exact Keeps.rfl h
          · split
            · exact killReading_keeps h _
            · exact killBg_keeps h _ id
        · exact Keeps.rfl h

theorem Woken.not_idle (hw : Woken q s s') : q ∉ s'.idle := fun hq => ((hw.idle q).mp hq).2 rfl

/-- Waking a queue up first, and then giving it a task. -/
theorem Shape.keeps_enqueueBg (h : Shape s) {s₁ : Server} (hw : s.ensureUsage q = .ok s₁)
    (t : Task) : Keeps s (s₁.enqueueBgTask q t) := by
  have he := h.ensureUsage hw
  refine ⟨he.shape.modify q fun _ => by rfl, ?_⟩
  intro hs
  exact ((he.served (hs.but q)).but q).modify _ |>.served fun hq => absurd hq he.not_idle

theorem resumeWaiting_keeps (h : Shape s) {flush : Option Str} {t : Task} {value : Var} {now : ℤ}
    (hs : s.resumeWaiting flush t value now = .ok s') : Keeps s s' := by
  have ho := h.keeps_obtain flush t.progr
  obtain ⟨s₁, hw, hs⟩ := bind_ok.mp hs
  cases hs
  have hk := ho.1.keeps_waiting
    ((s.obtainTqueue flush t.progr).2.waiting.eraseP (isSuspended t.id))
  exact (ho.trans hk).trans (hk.1.keeps_enqueueBg hw _)

theorem doResume_keeps (h : Shape s) {flush : Option Str} {id : ℤ} {value : Var} {progr : ℤ}
    {wizard : Bool} {now : ℤ} {r : Err × Server}
    (hs : s.doResume flush id value progr wizard now = .ok r) : Keeps s r.2 := by
  unfold doResume at hs
  split at hs
  · split at hs
    · cases hs
      exact Keeps.rfl h
    · obtain ⟨s₁, hw, hs⟩ := bind_ok.mp hs
      cases hs
      exact resumeWaiting_keeps h hw
  · split at hs
    · split at hs
      · cases hs
        exact Keeps.rfl h
      · cases hs
        dsimp only
        apply h.keeps_modify
        · exact fun _ => by rfl
        · intro hr
          exact ready_of_fewer (fun he => by rw [he]; rfl) hr
    · cases hs
      exact Keeps.rfl h

theorem wake_keeps (flush : Option Str) (now : ℤ) (ts : List Task) (h : Shape s)
    (hs : s.wake flush now ts = .ok s') : Keeps s s' := by
  induction ts generalizing s with
  | nil =>
    cases hs
    exact h.keeps_waiting []
  | cons t ts ih =>
    unfold wake at hs
    split at hs
    · obtain ⟨s₁, hw, hs⟩ := bind_ok.mp hs
      have ho := h.keeps_obtain flush t.progr
      have hk := ho.1.keeps_waiting ts
      have he := hk.1.keeps_enqueueBg hw t
      exact ((ho.trans hk).trans he).trans (ih he.1 hs)
    · cases hs
      exact h.keeps_waiting _

end Server

end LambdaMoo.Tasks
