import LambdaMoo.TaskRuns

/-!
# The players of the task queues

But for the functions on connections, the functions of the task module leave
it to the queues which players they are for and which connections are open.
New queues have no connection, and only such queues are freed.
-/

set_option autoImplicit false

namespace LambdaMoo.Tasks
open LambdaMoo.Input (How)

namespace Server

/-- No two queues are for the same player, and a connection that logs in has none. -/
structure Known (s : Server) : Prop where
  unique : ∀ q ∈ s.live, ∀ p ∈ s.live, q ≠ p → (s.queue q).player = (s.queue p).player →
    (s.queue q).player = nobody
  login : ∀ q, s.phase = .login q → (s.queue q).player < 0

structure Quiet (s s' : Server) : Prop where
  next : s'.nextUnconnected = s.nextUnconnected
  fresh : s.fresh ≤ s'.fresh
  same : ∀ q ∈ s'.live, q ∈ s.live → (s'.queue q).player = (s.queue q).player ∧
    (s'.queue q).connected = (s.queue q).connected
  new : ∀ q ∈ s'.live, q ∉ s.live → s.fresh ≤ q ∧ (s'.queue q).connected = false
  stays : ∀ q ∈ s.live, (s.queue q).connected = true → q ∈ s'.live
  known : s.Known → s'.Known

/-- The same queues with the same players. -/
structure SamePlayers (s s' : Server) : Prop where
  next : s'.nextUnconnected = s.nextUnconnected
  fresh : s'.fresh = s.fresh
  live : s'.live = s.live
  player : ∀ q, (s'.queue q).player = (s.queue q).player
  connected : ∀ q, (s'.queue q).connected = (s.queue q).connected
  login : ∀ q, s'.phase = .login q → s.phase = .login q ∨ (s.queue q).player < 0

variable {s s' : Server} {q : ℕ}

theorem SamePlayers.rfl : SamePlayers s s :=
  ⟨Eq.refl _, Eq.refl _, Eq.refl _, fun _ => Eq.refl _, fun _ => Eq.refl _, fun _ => .inl⟩

theorem SamePlayers.trans {s'' : Server} (h : SamePlayers s s') (h' : SamePlayers s' s'') : SamePlayers s s'' where
  next := h'.next.trans h.next
  fresh := h'.fresh.trans h.fresh
  live := h'.live.trans h.live
  player q := (h'.player q).trans (h.player q)
  connected q := (h'.connected q).trans (h.connected q)
  login q hq := by
    rcases h'.login q hq with h1|h1
    · exact h.login q h1
    · exact .inr (h.player q ▸ h1)

theorem SamePlayers.modify (s : Server) (q : ℕ) {f : TQueue → TQueue}
    (hp : ∀ tq, (f tq).player = tq.player) (hc : ∀ tq, (f tq).connected = tq.connected) :
    SamePlayers s (s.modify q f) where
  next := Eq.refl _
  fresh := Eq.refl _
  live := Eq.refl _
  player p := modify_field TQueue.player hp q p s
  connected p := modify_field TQueue.connected hc q p s
  login _ h := .inl h

/-- Other lists, and another phase that is no login. -/
theorem SamePlayers.relist (s : Server) (waiting : List Task) (idle active : List ℕ) :
    SamePlayers s {s with waiting := waiting, idle := idle, active := active} :=
  ⟨Eq.refl _, Eq.refl _, Eq.refl _, fun _ => Eq.refl _, fun _ => Eq.refl _, fun _ => .inl⟩

theorem SamePlayers.phase (s : Server) (phase : Phase) (id : ℤ)
    (h : ∀ q, phase = .login q → (s.queue q).player < 0) :
    SamePlayers s {s with phase := phase, currentTaskId := id} :=
  ⟨Eq.refl _, Eq.refl _, Eq.refl _, fun _ => Eq.refl _, fun _ => Eq.refl _,
    fun q hq => .inr (h q hq)⟩

theorem SamePlayers.quiet (h : SamePlayers s s') : Quiet s s' where
  next := h.next
  fresh := h.fresh.ge
  same q _ _ := ⟨h.player q, h.connected q⟩
  new q hq hn := absurd (h.live ▸ hq) hn
  stays q hq _ := h.live ▸ hq
  known hk := by
    refine ⟨?_, ?_⟩
    · intro q hq p hp hne he
      rw [h.player] at he ⊢
      rw [h.player] at he
      exact hk.unique q (h.live ▸ hq) p (h.live ▸ hp) hne he
    · intro q hq
      rw [h.player]
      rcases h.login q hq with h1|h1
      · exact hk.login q h1
      · exact h1

theorem Quiet.rfl : Quiet s s := SamePlayers.rfl.quiet

theorem Quiet.trans {s'' : Server} (hs : Shape s) (h : Quiet s s') (h' : Quiet s' s'') :
    Quiet s s'' where
  next := h'.next.trans h.next
  fresh := h.fresh.trans h'.fresh
  same q hq'' hq := by
    have hq' : q ∈ s'.live := by
      by_contra hn
      have := (h'.new q hq'' hn).1
      have := hs.fresh q hq
      have := h.fresh
      omega
    obtain ⟨h1, h2⟩ := h.same q hq' hq
    obtain ⟨h3, h4⟩ := h'.same q hq'' hq'
    exact ⟨h3.trans h1, h4.trans h2⟩
  new q hq'' hq := by
    by_cases hq' : q ∈ s'.live
    · obtain ⟨h1, h2⟩ := h.new q hq' hq
      exact ⟨h1, (h'.same q hq'' hq').2.trans h2⟩
    · obtain ⟨h1, h2⟩ := h'.new q hq'' hq'
      exact ⟨h.fresh.trans h1, h2⟩
  stays q hq hc := by
    have hq' := h.stays q hq hc
    exact h'.stays q hq' ((h.same q hq' hq).2.trans hc)
  known hk := h'.known (h.known hk)

theorem Known.modify (h : Known s) (q : ℕ) {f : TQueue → TQueue}
    (hp : ∀ tq, (f tq).player = tq.player) : Known (s.modify q f) := by
  have hpl : ∀ x, ((s.modify q f).queue x).player = (s.queue x).player := fun x =>
    modify_field TQueue.player hp q x s
  refine ⟨?_, ?_⟩
  · intro x hx y hy hne he
    rw [hpl] at he ⊢
    rw [hpl] at he
    exact h.unique x hx y hy hne he
  · intro x hx
    rw [hpl]
    exact h.login x hx

theorem obtain_quiet (h : Shape s) (flush : Option Str) (player : ℤ) :
    Quiet s (s.obtainTqueue flush player).2 := by
  have ho := h.obtain flush player
  rcases ho.found with ⟨-, he⟩|⟨hf, -, hlive, -, hnew⟩
  · rw [he]
    exact Quiet.rfl
  · have hnone : ∀ q ∈ s.live, (s.queue q).player ≠ player := by
      intro q hq he
      have := List.find?_eq_none.mp hf q (by rw [List.mem_append, or_comm]; exact (h.live q).mp hq)
      simp [he] at this
    have hmem : ∀ q ∈ (s.obtainTqueue flush player).2.live, q = s.fresh ∨ q ∈ s.live := by
      intro q hq
      rw [hlive] at hq
      exact List.mem_cons.mp hq
    refine ⟨ho.nextUnconnected, ?_, ?_, ?_, ?_, ?_⟩
    · have := ho.shape.fresh s.fresh (by rw [hlive]; exact List.mem_cons_self)
      omega
    · intro q _ hq
      rw [ho.queue q hq]
      exact ⟨rfl, rfl⟩
    · intro q hq hn
      obtain rfl := (hmem q hq).resolve_right hn
      rw [hnew]
      exact ⟨le_refl _, rfl⟩
    · intro q hq _
      rw [hlive]
      exact List.mem_cons_of_mem _ hq
    · intro hk
      refine ⟨?_, ?_⟩
      · intro q hq p hp hne he
        rcases hmem q hq with rfl|hq
        · have hp := (hmem p hp).resolve_left hne.symm
          rw [hnew, ho.queue p hp] at he
          exact absurd he.symm (hnone p hp)
        · rw [ho.queue q hq] at he ⊢
          rcases hmem p hp with rfl|hp
          · rw [hnew] at he
            exact absurd he (hnone q hq)
          · rw [ho.queue p hp] at he
            exact hk.unique q hq p hp hne he
      · intro q hq
        rw [ho.phase] at hq
        have hl : q ∈ s.live :=
          (h.live q).mpr (.inr (List.mem_of_mem_head? (h.head q (by rw [hq]; rfl))))
        rw [ho.queue q hl]
        exact hk.login q hq

/-- A function that fails at most where a queue is on no list, and leaves the players alone. -/
structure Calm {α : Type} (s : Server) (state : α → Server) (r : Result α) : Prop where
  error : ∀ e, r = .error e → e = .undefined "null pointer"
  ok : ∀ a, r = .ok a → Quiet s (state a)

theorem Calm.of_quiet {s' : Server} (h : Quiet s s') : Calm s id (.ok s') :=
  by
  refine ⟨fun e he => ?_, fun a ha => ?_⟩
  · cases he
  · cases ha
    exact h

theorem Calm.after {α : Type} {state : α → Server} {r : Result α} (hs : Shape s) (h : Quiet s s')
    (hr : Calm s' state r) : Calm s state r :=
  ⟨hr.error, fun a ha => h.trans hs (hr.ok a ha)⟩

theorem Calm.bind {α β : Type} {state : α → Server} {state' : β → Server} {r : Result α}
    {f : α → Result β} (hs : Shape s) (h : Calm s state r)
    (hf : ∀ a, r = .ok a → Calm (state a) state' (f a)) : Calm s state' (r >>= f) := by
  cases hr : r with
  | error e =>
    refine ⟨fun e' he => ?_, fun b hb => ?_⟩
    · cases he
      exact h.error e hr
    · cases hb
  | ok a => exact Calm.after hs (h.ok a hr) (hf a hr)

theorem ensureUsage_players (hs : s.ensureUsage q = .ok s') : SamePlayers s s' := by
  unfold ensureUsage at hs
  split at hs
  · cases hs
    exact SamePlayers.rfl
  · split at hs
    · cases hs
      have h1 := SamePlayers.modify s q (f := fun tq => {tq with usage := s.firstUsage})
        (fun _ => by rfl) (fun _ => by rfl)
      exact h1.trans ⟨Eq.refl _, Eq.refl _, Eq.refl _, fun _ => Eq.refl _, fun _ => Eq.refl _,
        fun _ => .inl⟩
    · cases hs

theorem ensureUsage_calm (q : ℕ) (s : Server) : Calm s id (s.ensureUsage q) := by
  refine ⟨fun e he => ?_, fun s' hs => (ensureUsage_players hs).quiet⟩
  unfold ensureUsage at he
  split at he
  · cases he
  · split at he
    · cases he
    · cases he
      rfl

/-- A change of a queue, which may be woken up. -/
theorem Shape.calm_notice (h : Shape s) (q : ℕ) {f : TQueue → TQueue} {c : Prop} [Decidable c]
    (hp : ∀ tq, (f tq).player = tq.player) (hc : ∀ tq, (f tq).connected = tq.connected) :
    Calm s id (if c then (s.modify q f).ensureUsage q else .ok (s.modify q f)) := by
  have hm := (SamePlayers.modify s q hp hc).quiet
  split
  · exact Calm.after h hm (ensureUsage_calm q _)
  · exact Calm.of_quiet hm

theorem setHoldInput_calm (h : Shape s) (q : ℕ) (value : Bool) :
    Calm s id (s.setHoldInput q value) :=
  h.calm_notice q (fun _ => by rfl) fun _ => by rfl

theorem setDisableOob_calm (h : Shape s) (q : ℕ) (value : Bool) :
    Calm s id (s.setDisableOob q value) :=
  h.calm_notice q (fun _ => by rfl) fun _ => by rfl

theorem enqueueInputTask_calm (h : Shape s) (q : ℕ) (line : Str) (atFront binary : Bool) :
    Calm s id (s.enqueueInputTask q line atFront binary) :=
  h.calm_notice q (fun _ => by rfl) fun _ => by rfl

theorem flushInput_players (q : ℕ) (s : Server) : SamePlayers s (s.flushInput q) :=
  SamePlayers.modify s q (fun _ => by rfl) fun _ => by rfl

theorem newInputTask_calm (h : Shape s) (q : ℕ) (line : Str) (binary : Bool) :
    Calm s id (s.newInputTask q line binary) := by
  unfold newInputTask
  split
  · exact Calm.of_quiet (flushInput_players q s).quiet
  · exact enqueueInputTask_calm h q line false binary

theorem forceInput_calm (h : Shape s) (flush : Option Str) (conn : ℤ) (line : Str)
    (atFront : Bool) : Calm s id (s.forceInput flush conn line atFront) :=
  Calm.after h (obtain_quiet h flush conn)
    (enqueueInputTask_calm (h.obtain flush conn).shape _ line atFront false)

theorem bfFlushInput_quiet (h : Shape s) (flush : Option Str) (conn : ℤ) :
    Quiet s (s.bfFlushInput flush conn) :=
  (obtain_quiet h flush conn).trans h (flushInput_players _ _).quiet

theorem enqueueWaiting_quiet (h : Shape s) (flush : Option Str) (t : Task) :
    Quiet s (s.enqueueWaiting flush t) := by
  have hm := SamePlayers.modify (s.obtainTqueue flush t.progr).2 (s.obtainTqueue flush t.progr).1
    (f := fun tq => {tq with numBgTasks := tq.numBgTasks+1}) (fun _ => by rfl) (fun _ => by rfl)
  exact (obtain_quiet h flush t.progr).trans h (hm.trans (SamePlayers.relist _ _ _ _)).quiet

theorem enqueueTask_quiet (h : Shape s) (flush : Option Str) (limits : Limits) (t : Task) :
    Quiet s (s.enqueueTask flush limits t).2 := by
  unfold enqueueTask
  split
  · exact enqueueWaiting_quiet h flush t
  · exact Quiet.rfl

theorem enqueueBgTask_players (q : ℕ) (t : Task) (s : Server) :
    SamePlayers s (s.enqueueBgTask q t) :=
  SamePlayers.modify s q (fun _ => by rfl) fun _ => by rfl

theorem resumeTask_calm (h : Shape s) (flush : Option Str) (id' progr : ℤ) (value : Var) :
    Calm s id (s.resumeTask flush id' progr value) := by
  apply Calm.after h (obtain_quiet h flush progr)
  apply Calm.after (h.obtain flush progr).shape (enqueueBgTask_players _ _ _).quiet
  exact ensureUsage_calm _ _

theorem dequeueInputTask_players (how : How) (q : ℕ) (s : Server) :
    SamePlayers s (s.dequeueInputTask how q).2 := by
  unfold dequeueInputTask
  dsimp only
  split
  · exact SamePlayers.rfl
  · dsimp only
    exact SamePlayers.modify s q (fun _ => by rfl) fun _ => by rfl

theorem readInputNow_players (conn : ℤ) (s : Server) : SamePlayers s (s.readInputNow conn) := by
  unfold readInputNow
  split
  · exact SamePlayers.rfl
  · split
    · exact SamePlayers.rfl
    · exact dequeueInputTask_players .inband _ s

theorem makeReadingTask_calm (h : Shape s) (player id' : ℤ) :
    Calm s id (s.makeReadingTask player id') := by
  unfold makeReadingTask
  split
  · exact Calm.of_quiet Quiet.rfl
  · split
    · exact Calm.of_quiet Quiet.rfl
    · exact h.calm_notice _ (fun _ => by rfl) fun _ => by rfl

theorem killReading_players (q : ℕ) (s : Server) : SamePlayers s (s.killReading q) :=
  SamePlayers.modify s q (fun _ => by rfl) fun _ => by rfl

theorem killBg_players (q : ℕ) (id : ℤ) (s : Server) : SamePlayers s (s.killBg q id) :=
  SamePlayers.modify s q (fun _ => by rfl) fun _ => by rfl

theorem killWaiting_players (t : Task) (s : Server) : SamePlayers s (s.killWaiting t) := by
  unfold killWaiting
  dsimp only
  have hr := SamePlayers.relist s (s.waiting.eraseP fun u => u.id = t.id) s.idle s.active
  split
  · exact hr.trans (SamePlayers.modify _ _ (fun _ => by rfl) fun _ => by rfl)
  · exact hr

theorem killTask_players (id owner : ℤ) (wizard : Bool) (s : Server) :
    SamePlayers s (s.killTask id owner wizard).2 := by
  unfold killTask
  split
  · exact SamePlayers.rfl
  · split
    · split
      · exact SamePlayers.rfl
      · exact killWaiting_players _ s
    · split
      · split
        · exact SamePlayers.rfl
        · exact killReading_players _ s
      · split
        · unfold killActive
          split
          · exact SamePlayers.rfl
          · split
            · exact killReading_players _ s
            · exact killBg_players _ id s
        · exact SamePlayers.rfl

/-- A task goes from the waiting list to a queue that is woken up. -/
theorem ready_calm (h : Shape s) (flush : Option Str) (progr : ℤ) (ts : List Task) (t : Task) :
    Calm s id (do
      let s' ← {(s.obtainTqueue flush progr).2 with waiting := ts}.ensureUsage
        (s.obtainTqueue flush progr).1
      .ok (s'.enqueueBgTask (s.obtainTqueue flush progr).1 t)) := by
  have ho := h.obtain flush progr
  have hr := SamePlayers.relist (s.obtainTqueue flush progr).2 ts
    (s.obtainTqueue flush progr).2.idle (s.obtainTqueue flush progr).2.active
  apply Calm.after h (obtain_quiet h flush progr)
  apply Calm.after ho.shape hr.quiet
  apply Calm.bind (ho.shape.keeps_waiting ts).1 (ensureUsage_calm _ _)
  intro a _
  exact Calm.of_quiet (enqueueBgTask_players _ _ _).quiet

theorem doResume_calm (h : Shape s) (flush : Option Str) (id' : ℤ) (value : Var) (progr : ℤ)
    (wizard : Bool) (now : ℤ) :
    Calm s Prod.snd (s.doResume flush id' value progr wizard now) := by
  have hsame : ∀ {s' : Server} (e : Err), SamePlayers s s' →
      Calm s Prod.snd (.ok (e, s') : Result (Err × Server)) := by
    intro s' e hs
    refine ⟨fun _ he => ?_, fun a ha => ?_⟩
    · cases he
    · cases ha
      exact hs.quiet
  unfold doResume
  split
  · split
    · exact hsame _ SamePlayers.rfl
    · apply Calm.bind h (ready_calm h flush _ _ _)
      intro a _
      refine ⟨fun _ he => ?_, fun b hb => ?_⟩
      · cases he
      · cases hb
        exact Quiet.rfl
  · split
    · split
      · exact hsame _ SamePlayers.rfl
      · exact hsame _ (SamePlayers.modify s _ (fun _ => by rfl) fun _ => by rfl)
    · exact hsame _ SamePlayers.rfl

theorem wake_calm (flush : Option Str) (now : ℤ) (ts : List Task) (h : Shape s) :
    Calm s id (s.wake flush now ts) := by
  induction ts generalizing s with
  | nil => exact Calm.of_quiet (SamePlayers.relist s [] s.idle s.active).quiet
  | cons t ts ih =>
    unfold wake
    split
    · have ho := h.obtain flush t.progr
      have hr := SamePlayers.relist (s.obtainTqueue flush t.progr).2 ts
        (s.obtainTqueue flush t.progr).2.idle (s.obtainTqueue flush t.progr).2.active
      have hk := (ho.shape.keeps_waiting ts).1
      apply Calm.after h (obtain_quiet h flush t.progr)
      apply Calm.after ho.shape hr.quiet
      apply Calm.bind hk (ensureUsage_calm _ _)
      intro a ha
      have he := hk.keeps_enqueueBg ha t
      exact Calm.after (hk.ensureUsage ha).shape (enqueueBgTask_players _ _ _).quiet (ih he.1)
    · exact Calm.of_quiet (SamePlayers.relist s (t::ts) s.idle s.active).quiet

theorem runInput_players (q : ℕ) (t : Input.Task) (parses : Bool) (newId : ℤ) (s : Server) :
    SamePlayers s (s.runInput q t parses newId) := by
  unfold runInput
  split
  · exact SamePlayers.phase s _ _ fun _ hq => by cases hq
  · split
    · exact (killReading_players q s).trans (SamePlayers.phase _ _ _ fun _ hq => by cases hq)
    · split
      · next hp =>
        refine SamePlayers.phase s _ _ ?_
        intro p hq
        cases hq
        exact hp
      · split
        · exact SamePlayers.phase s _ _ fun _ hq => by cases hq
        · exact SamePlayers.rfl

theorem dequeueBgTask_players (q : ℕ) (s : Server) : SamePlayers s (s.dequeueBgTask q).2 := by
  unfold dequeueBgTask
  split
  · exact SamePlayers.rfl
  · dsimp only
    exact SamePlayers.modify s q (fun _ => by rfl) fun _ => by rfl

theorem dispatch_players (parses : Bool) (newId : ℤ) (s : Server) :
    SamePlayers s (s.dispatch parses newId) := by
  unfold dispatch
  split
  · exact SamePlayers.rfl
  · next q qs _ =>
    dsimp only
    split
    · exact (killReading_players q s).trans (SamePlayers.phase _ _ _ fun _ hq => by cases hq)
    · have hd := dequeueInputTask_players
        (if (s.queue q).holdInput && !(s.queue q).reading.isSome then .oob else .first) q s
      split
      · next hr =>
        rw [hr] at hd
        exact hd.trans (runInput_players _ _ _ _ _)
      · have hb := dequeueBgTask_players q s
        split
        · next hr =>
          rw [hr] at hb
          exact hb.trans (SamePlayers.phase _ _ _ fun _ hq => by cases hq)
        · have h1 := SamePlayers.relist s s.waiting s.idle qs
          have h2 := h1.trans (SamePlayers.modify {s with active := qs} q
            (f := fun tq => {tq with usage := noUsage}) (fun _ => by rfl) fun _ => by rfl)
          exact h2.trans (SamePlayers.relist _ _ _ _)

theorem finish_players (q : ℕ) (elapsed : ℤ) (s : Server) :
    SamePlayers s (s.finish q elapsed) := by
  have h1 : SamePlayers s {s with
      active := (s.active.dropWhile (· ≠ q)).drop 1, phase := .rest} :=
    ⟨Eq.refl _, Eq.refl _, Eq.refl _, fun _ => Eq.refl _, fun _ => Eq.refl _,
      fun _ hq => by cases hq⟩
  have h2 := h1.trans (SamePlayers.modify _ q
    (f := fun tq => {tq with usage := tq.usage+elapsed}) (fun _ => by rfl) fun _ => by rfl)
  exact h2.trans (SamePlayers.relist _ _ _ _)

theorem freeTqueue_quiet (h : Shape s) (hc : (s.queue q).connected = false)
    (hp : s.phase = .rest) : Quiet s (s.freeTqueue q) := by
  have hmem : ∀ p, p ∈ (s.freeTqueue q).live ↔ p ≠ q ∧ p ∈ s.live := fun p =>
    h.single.mem_erase_iff
  refine ⟨rfl, le_refl _, fun _ _ _ => ⟨rfl, rfl⟩, ?_, ?_, ?_⟩
  · intro p hp hn
    exact absurd ((hmem p).mp hp).2 hn
  · intro p hp hcp
    refine (hmem p).mpr ⟨?_, hp⟩
    rintro rfl
    rw [hc] at hcp
    cases hcp
  · intro hk
    refine ⟨?_, ?_⟩
    · intro p hpl r hr
      exact hk.unique p ((hmem p).mp hpl).2 r ((hmem r).mp hr).2
    · intro p hl
      rw [show (s.freeTqueue q).phase = s.phase from rfl, hp] at hl
      cases hl

theorem freeSpent_quiet (qs : List ℕ) (h : Shape s) (hn : qs.Nodup) (hq : ∀ q ∈ qs, q ∈ s.idle)
    (hp : s.phase = .rest) : Quiet s (s.freeSpent qs) := by
  induction qs generalizing s with
  | nil => exact Quiet.rfl
  | cons q qs ih =>
    rw [freeSpent]
    split
    · next hspent =>
      have hc : (s.queue q).connected = false := by
        simp only [isSpent, Bool.and_eq_true, Bool.not_eq_true'] at hspent
        exact hspent.1.1
      have hk := freeTqueue_keeps h (hq q (by simp))
      refine (freeTqueue_quiet h hc hp).trans h (ih hk.1 hn.of_cons ?_ hp)
      intro p hm
      have hpq : p ≠ q := fun he => (List.nodup_cons.mp hn).1 (he ▸ hm)
      exact (h.idle_nodup.mem_erase_iff).mpr ⟨hpq, hq p (by simp [hm])⟩
    · exact ih h hn.of_cons (fun p hm => hq p (by simp [hm])) hp

theorem moveBg_players (source target : ℕ) (s : Server) :
    SamePlayers s (s.moveBg source target) := by
  have h1 := SamePlayers.modify s source (f := fun tq =>
    {tq with bg := [], numBgTasks := tq.numBgTasks-(s.queue source).bg.length})
    (fun _ => by rfl) fun _ => by rfl
  exact h1.trans (SamePlayers.modify _ target (f := fun tq =>
    {tq with bg := tq.bg ++ (s.queue source).bg}) (fun _ => by rfl) fun _ => by rfl)

/-- A queue that is made on the way is for the old player. -/
theorem leaveTasks_quiet (h : Shape s) (flush : Option Str) (q : ℕ) (oldPlayer : ℤ) :
    Quiet s (s.leaveTasks flush q oldPlayer) ∧ (∀ x ∈ s.live,
      x ∈ (s.leaveTasks flush q oldPlayer).live) ∧
      ∀ x ∈ (s.leaveTasks flush q oldPlayer).live, x ∉ s.live → x = s.fresh ∧
        ((s.leaveTasks flush q oldPlayer).queue x).player = oldPlayer := by
  unfold leaveTasks
  split
  · have ho := h.obtain flush oldPlayer
    have hq := obtain_quiet h flush oldPlayer
    dsimp only
    generalize s.obtainTqueue flush oldPlayer = r at ho hq ⊢
    have hsame := (SamePlayers.modify r.2 r.1 (f := fun tq =>
      {tq with numBgTasks := (s.queue q).numBgTasks}) (fun _ => by rfl) fun _ => by rfl).trans
      ((moveBg_players q r.1 _).trans (SamePlayers.modify _ q (f := fun tq =>
        {tq with numBgTasks := 0}) (fun _ => by rfl) fun _ => by rfl))
    refine ⟨hq.trans h hsame.quiet, ?_, ?_⟩
    · intro x hx
      rw [hsame.live]
      rcases ho.found with ⟨-, he⟩|⟨-, -, hl, -⟩
      · rw [he]
        exact hx
      · rw [hl]
        exact List.mem_cons_of_mem _ hx
    · intro x hx hn
      rw [hsame.player]
      rw [hsame.live] at hx
      rcases ho.found with ⟨-, he⟩|⟨-, hr, hl, -⟩
      · rw [he] at hx
        exact absurd hx hn
      · rw [hl] at hx
        have he := (List.mem_cons.mp hx).resolve_right hn
        rw [he, ← hr]
        exact ⟨rfl, ho.whose⟩
  · exact ⟨Quiet.rfl, fun _ hx => hx, fun _ hx hn => absurd hx hn⟩

/-- But for the queue that is taken over, the players stay. -/
theorem takeOver_players (q d : ℕ) (s : Server) :
    SamePlayers (s.modify d fun tq => {tq with player := nobody}) (s.takeOver q d) := by
  have hmove := moveBg_players d q ((s.modify q fun tq =>
    {tq with numBgTasks := (s.queue d).numBgTasks}).flushInput d)
  have hbefore := (SamePlayers.modify s q (f := fun tq =>
    {tq with numBgTasks := (s.queue d).numBgTasks}) (fun _ => by rfl) fun _ => by rfl).trans
    ((flushInput_players d _).trans hmove)
  unfold takeOver
  dsimp only
  generalize moveBg d q _ = s1 at hbefore ⊢
  refine ⟨hbefore.next, hbefore.fresh, hbefore.live, ?_, ?_, ?_⟩
  · intro x
    by_cases hx : x = d
    · subst hx
      rw [modify_self, modify_self]
    · rw [modify_of_ne _ _ hx, modify_of_ne _ _ hx, hbefore.player]
  · intro x
    rw [modify_field TQueue.connected fun _ => by rfl,
      modify_field TQueue.connected fun _ => by rfl, hbefore.connected]
  · intro x hx
    rcases hbefore.login x hx with h1|h1
    · exact .inl h1
    · refine .inr ?_
      by_cases hxd : x = d
      · subst hxd
        rw [modify_self]
        show nobody < 0
        decide
      · rwa [modify_of_ne _ _ hxd]

end Server

end LambdaMoo.Tasks
