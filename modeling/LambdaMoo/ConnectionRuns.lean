import LambdaMoo.ConnectionLogins

/-!
# Runs of the connections

The handles and the task queues stay in step through new connections, logins
and the closing of connections, also where a player's new connection takes the
place of an old one.
-/

set_option autoImplicit false

namespace LambdaMoo.Connections
open LambdaMoo.Tasks (Server nobody)
open LambdaMoo.Tasks.Server

namespace Conns

variable {c c' : Conns} {q : ℕ}

/-- The handle and the queue of a new connection. -/
theorem Paired.newShandle (hp : c.Paired) (flush : Option Str) (listener : ℤ) (outbound : Bool) :
    let s := { c.tasks with nextUnconnected := c.tasks.nextUnconnected-1 }
    ({ c with
      handles := ⟨c.fresh, c.tasks.nextUnconnected, listener,
        (s.obtainTqueue flush c.tasks.nextUnconnected).1, 0, false, outbound, false, false⟩::c.handles
      fresh := c.fresh+1
      tasks := s.newTaskQueue flush c.tasks.nextUnconnected } : Conns).Paired := by
  intro s
  have hs : s.Shape := ⟨hp.shape.nodup, hp.shape.live, hp.shape.single, hp.shape.usage,
    hp.shape.fresh, hp.shape.head⟩
  have hk : s.Known := ⟨hp.known.unique, hp.known.login⟩
  have ho := hs.obtain flush c.tasks.nextUnconnected
  have hq := obtain_quiet hs flush c.tasks.nextUnconnected
  unfold newTaskQueue
  dsimp only
  generalize s.obtainTqueue flush c.tasks.nextUnconnected = r at ho hq ⊢
  -- the queue of another connection is not the one of the new connection
  have hother : ∀ g ∈ c.handles, g.tasks ≠ r.1 := by
    intro g hg he
    obtain ⟨hlive, -, hpl⟩ := hp.queue g hg
    have hw := ho.whose
    rw [← he, ho.queue g.tasks hlive] at hw
    have hw' : (c.tasks.queue g.tasks).player = c.tasks.nextUnconnected := hw
    have := (hp.somebody g hg).1
    omega
  have hnext : r.2.nextUnconnected = c.tasks.nextUnconnected-1 := hq.next
  have hk' := (hq.known hk).modify r.1 (f := fun tq => { tq with connected := true })
    fun _ => by rfl
  have hs' := ho.shape.modify r.1 (f := fun tq => { tq with connected := true }) fun _ => by rfl
  refine ⟨hs', hk', ?_, ?_, ?_, ?_, ?_, ?_, ?_⟩
  · show r.2.nextUnconnected < nobody
    have := hp.next
    omega
  · refine List.nodup_cons.mpr ⟨?_, hp.ids⟩
    intro hm
    obtain ⟨g, hg, he⟩ := List.mem_map.mp hm
    exact (hp.fresh g hg).ne he
  · intro g hg
    rcases List.mem_cons.mp hg with rfl|hg
    · exact Nat.lt_succ_self _
    · exact Nat.lt_succ_of_lt (hp.fresh g hg)
  · intro g hg g' hg' he
    rcases List.mem_cons.mp hg with rfl|hg
    · rcases List.mem_cons.mp hg' with rfl|hg'
      · rfl
      · exact absurd he (hp.somebody g' hg').1.ne
    · rcases List.mem_cons.mp hg' with rfl|hg'
      · exact absurd he.symm (hp.somebody g hg).1.ne
      · exact hp.players g hg g' hg' he
  · intro g hg
    show r.2.nextUnconnected < _ ∧ _
    rcases List.mem_cons.mp hg with rfl|hg
    · have := hp.next
      dsimp only
      exact ⟨by omega, this.ne⟩
    · have := (hp.somebody g hg).1
      exact ⟨by omega, (hp.somebody g hg).2⟩
  · intro g hg
    rcases List.mem_cons.mp hg with rfl|hg
    · refine ⟨ho.mem, ?_, ?_⟩
      · rw [modify_self]
      · rw [modify_self]
        exact ho.whose
    · obtain ⟨hlive, hc, hpl⟩ := hp.queue g hg
      refine ⟨hq.stays _ hlive hc, ?_, ?_⟩
      · rw [modify_of_ne _ _ (hother g hg), ho.queue _ hlive]
        exact hc
      · rw [modify_of_ne _ _ (hother g hg), ho.queue _ hlive]
        exact hpl
  · intro x hx hc
    by_cases hxr : x = r.1
    · exact ⟨_, List.mem_cons_self, hxr.symm⟩
    · rw [modify_of_ne _ _ hxr] at hc
      have hlive : x ∈ c.tasks.live := by
        by_contra hn
        rw [(hq.new x hx hn).2] at hc
        cases hc
      rw [ho.queue x hlive] at hc
      obtain ⟨g, hg, ht⟩ := hp.handle x hlive hc
      exact ⟨g, List.mem_cons_of_mem _ hg, ht⟩

theorem Paired.input (hp : c.Paired) (hq : q ∈ c.tasks.live)
    (hc : (c.tasks.queue q).connected = true) (line : Str) (binary : Bool) :
    Safe (fun c' => c'.Paired ∧ q ∈ c'.tasks.live) (do
      let s ← c.tasks.newInputTask q line binary
      c.settle q s) := by
  refine (Safe.of_calm (newInputTask_calm hp.shape q line binary)).bind ?_
  intro s hs hquiet
  have hlive := hquiet.stays q hq hc
  refine (hp.settle (newInputTask_keeps hp.shape hs).1 hquiet hlive).imp ?_
  rintro c' ⟨hp', rfl⟩
  exact ⟨hp', hlive⟩

theorem Paired.serverNewConnection (hp : c.Paired) (flush : Option Str) (listener : ℤ)
    (listening outbound : Bool) :
    Safe Paired (c.serverNewConnection flush listener listening outbound) := by
  have h1 := hp.newShandle flush listener outbound
  unfold Conns.serverNewConnection
  dsimp only at h1 ⊢
  split
  · obtain ⟨hlive, hc, -⟩ := h1.queue _ List.mem_cons_self
    rw [← bind_assoc]
    refine (h1.input hlive hc [] false).bind ?_
    rintro c2 - ⟨hp2, hlive2⟩
    refine (taskSuspendInput_safe fun hc => ?_).imp ?_
    · obtain ⟨h, hh, -⟩ := hp2.find hlive2 hc
      exact ⟨h, hh⟩
    · rintro c3 ⟨hl, ht⟩
      exact hp2.quiet hl (ht ▸ hp2.shape) (ht ▸ Quiet.rfl)
  · exact Safe.of_ok h1

theorem Paired.setConnectionOption (hp : c.Paired) (conn : ℤ) (o : Setting) :
    Safe Paired (c.setConnectionOption conn o) := by
  unfold Conns.setConnectionOption
  split
  · exact Safe.of_ok hp
  · next h hf =>
    split
    · exact Safe.of_ok hp
    · cases o with
      | binary value =>
        have hl := modifyShandle_like c h.id (f := fun h => { h with binary := value })
          fun _ => by rfl
        exact Safe.of_ok (hp.quiet hl hp.shape Quiet.rfl)
      | flushCommand cmd =>
        have hs := (setFlushCommand_keeps hp.shape h.tasks cmd).1
        have hq := SamePlayers.modify c.tasks h.tasks (f := fun tq =>
          { tq with flushCmd := if cmd = [] then none else some cmd })
          (fun _ => by rfl) fun _ => by rfl
        exact Safe.of_ok (hp.quiet ⟨rfl, rfl⟩ hs hq.quiet)
      | holdInput value =>
        refine (Safe.of_calm (setHoldInput_calm hp.shape h.tasks value)).bind fun s hs hq => ?_
        exact Safe.of_ok (hp.quiet ⟨rfl, rfl⟩ (setHoldInput_keeps hp.shape hs).1 hq)
      | disableOob value =>
        refine (Safe.of_calm (setDisableOob_calm hp.shape h.tasks value)).bind fun s hs hq => ?_
        exact Safe.of_ok (hp.quiet ⟨rfl, rfl⟩ (setDisableOob_keeps hp.shape hs).1 hq)

theorem Paired.reap (hp : c.Paired) {h : Shandle} (hm : h ∈ c.handles) (timedOut recycled : Bool) :
    Safe Paired (c.reap h timedOut recycled) := by
  unfold Conns.reap
  split
  · exact hp.freeShandle hm
  · split
    · exact hp.freeShandle hm
    · split
      · exact hp.freeShandle hm
      · exact Safe.of_ok hp

theorem Paired.bootPlayer (hp : c.Paired) (player : ℤ) : (c.bootPlayer player).Paired := by
  unfold Conns.bootPlayer
  split
  · exact hp
  · next h _ =>
    have hl := modifyShandle_like c h.id (f := fun h => { h with disconnectMe := true })
      fun _ => by rfl
    exact hp.quiet hl hp.shape Quiet.rfl

theorem Paired.withShandle (hp : c.Paired) {id : ℕ} {f : Shandle → Result Conns}
    (hf : ∀ h ∈ c.handles, Safe Paired (f h)) : Safe Paired (c.withShandle id f) := by
  unfold Conns.withShandle
  split
  · exact Safe.of_ok hp
  · next h hm => exact hf h (List.mem_of_find?_eq_some hm)

/-- The operations that are not for one connection. -/
theorem step_calm {s : Server} (h : s.Shape) (op : Tasks.Op) (ho : forConnection op = false) :
    Calm s id (s.step op) := by
  cases op with
  | connect | disconnect | flushCommand | holdInput | disableOob | input | login => cases ho
  | forceInput flush conn line atFront => exact forceInput_calm h flush conn line atFront
  | flushInput flush conn => exact Calm.of_quiet (bfFlushInput_quiet h flush conn)
  | enqueue flush limits t => exact Calm.of_quiet (enqueueTask_quiet h flush limits t)
  | restore flush t => exact Calm.of_quiet (enqueueWaiting_quiet h flush t)
  | resumeTask flush id progr value => exact resumeTask_calm h flush id progr value
  | readNow conn => exact Calm.of_quiet (readInputNow_players conn s).quiet
  | read player id => exact makeReadingTask_calm h player id
  | kill id owner wizard => exact Calm.of_quiet (killTask_players id owner wizard s).quiet
  | resume flush id value progr wizard now =>
    apply Calm.bind h (doResume_calm h flush id value progr wizard now)
    intro a _
    exact Calm.of_quiet Quiet.rfl
  | wake flush now =>
    simp only [Server.step]
    split
    · exact wake_calm flush now s.waiting h
    · exact Calm.of_quiet Quiet.rfl
  | dispatch parses newId =>
    simp only [Server.step]
    split
    · exact Calm.of_quiet (dispatch_players parses newId s).quiet
    · exact Calm.of_quiet Quiet.rfl
  | finish elapsed =>
    simp only [Server.step]
    split
    · exact Calm.of_quiet (finish_players _ elapsed s).quiet
    · exact Calm.of_quiet Quiet.rfl
  | freeSpent =>
    simp only [Server.step]
    split
    · next hph => exact Calm.of_quiet (freeSpent_quiet s.idle h h.idle_nodup (fun _ hq => hq) hph)
    · exact Calm.of_quiet Quiet.rfl

theorem inputQueue_live {s s' : Server} {op : Tasks.Op} (h : s.Shape) (h' : s'.Shape)
    (hs : s.step op = .ok s') (hq : inputQueue s s' op = some q) : q ∈ s'.live := by
  unfold inputQueue at hq
  split at hq
  · exact (h'.find hq).1
  · exact (h'.find hq).1
  · exact (h'.find hq).1
  · have hlive : q ∈ s.live := (h.live q).mpr (.inr (List.mem_of_mem_head? hq))
    simp only [Server.step] at hs
    split at hs
    · cases hs
      rw [(dispatch_players _ _ s).live]
      exact hlive
    · cases hs
      exact hlive
  · cases hq

theorem step_paired (hp : c.Paired) (op : Op) : Safe Paired (c.step op) := by
  cases op with
  | connect flush listener listening outbound =>
    exact hp.serverNewConnection flush listener listening outbound
  | receive id line =>
    apply hp.withShandle
    intro h hm
    obtain ⟨hl, hc, -⟩ := hp.queue h hm
    exact (hp.input hl hc line h.binary).imp fun _ h' => h'.1
  | close id =>
    apply hp.withShandle
    intro h hm
    exact hp.freeShandle hm
  | reap id timedOut recycled =>
    apply hp.withShandle
    intro h hm
    exact hp.reap hm timedOut recycled
  | boot player => exact Safe.of_ok (hp.bootPlayer player)
  | set conn o => exact hp.setConnectionOption conn o
  | login flush user now => exact hp.login flush user now
  | task op =>
    simp only [step]
    split
    · exact Safe.of_ok hp
    · next ho =>
      refine (Safe.of_calm (step_calm hp.shape op (by simpa using ho))).bind ?_
      intro s hs hq
      have hshape := (step_shape hp.shape op hs).1
      cases hi : inputQueue c.tasks s op with
      | none => exact Safe.of_ok (hp.quiet ⟨rfl, rfl⟩ hshape hq)
      | some q =>
        exact (hp.settle hshape hq (inputQueue_live hp.shape hshape hs hi)).imp fun _ h => h.1

end Conns

theorem init_paired : init.Paired where
  shape := Tasks.init_shape
  known := ⟨fun _ hq => (nomatch hq), fun _ hq => (nomatch hq)⟩
  next := by decide
  ids := List.nodup_nil
  fresh h hm := by cases hm
  players h hm := by cases hm
  somebody h hm := by cases hm
  queue h hm := by cases hm
  handle q hq := by cases hq

theorem run_paired (ops : List Op) {c : Conns} (hp : c.Paired) : Safe Conns.Paired (run ops c) := by
  induction ops generalizing c with
  | nil => exact Safe.of_ok hp
  | cons op ops ih => exact (Conns.step_paired hp op).bind fun c' _ hp' => ih hp'

/-- In every run the handles and the open task queues are in bijection, each for its own player, and
a handle is found wherever it is looked for. -/
theorem bijection_of_run (ops : List Op) :
    run ops init ≠ .error noShandle ∧ run ops init ≠ .error notConnected ∧
    ∀ c, run ops init = .ok c → (c.handles.map (·.player)).Nodup ∧
      (∀ h ∈ c.handles, h.tasks ∈ c.tasks.live ∧ (c.tasks.queue h.tasks).connected = true ∧
        (c.tasks.queue h.tasks).player = h.player) ∧
      (∀ q ∈ c.tasks.live, (c.tasks.queue q).connected = true →
        ∃! h, h ∈ c.handles ∧ h.tasks = q) ∧
      ∀ q ∈ c.tasks.live, (c.tasks.queue q).connected = true →
        ∃ h, c.findShandle (c.tasks.queue q).player = some h ∧ h.tasks = q := by
  have hsafe := run_paired ops init_paired
  refine ⟨fun he => (hsafe.error _ he).1 rfl, fun he => (hsafe.error _ he).2 rfl, ?_⟩
  intro c hr
  have hp := hsafe.ok c hr
  refine ⟨?_, hp.queue, ?_, fun q hq hc => hp.find hq hc⟩
  · have hn : c.handles.Nodup := List.Nodup.of_map _ hp.ids
    apply hn.map_on
    intro h hm h' hm' he
    exact hp.unique hm hm' (hp.players h hm h' hm' he)
  · intro q hq hc
    obtain ⟨h, hm, ht⟩ := hp.handle q hq hc
    refine ⟨h, ⟨hm, ht⟩, ?_⟩
    rintro h' ⟨hm', ht'⟩
    apply hp.unique hm' hm
    apply hp.players h' hm' h hm
    rw [← (hp.queue h hm).2.2, ← (hp.queue h' hm').2.2, ht, ht']

/-- A player logs in, and again from a second connection. -/
def reconnected : List Op :=
  [.connect none 0 true false, .task (.dispatch true 11), .login none (some 3) 7,
   .task (.finish 0), .connect none 0 true false, .task (.dispatch true 13),
   .task (.dispatch true 13), .login none (some 3) 9]

theorem bijection_of_run_reconnected : ∃ c, run reconnected init = .ok c ∧
    c.handles.map (fun h => (h.id, h.player, h.tasks)) = [(1, 3, 1)] ∧
    c.tasks.live.map (fun q => (c.tasks.queue q).connected) = [true, false] ∧
    ∃ h, c.findShandle (c.tasks.queue 1).player = some h ∧ h.tasks = 1 :=
  ⟨_, rfl, by decide, by decide,
    ((bijection_of_run reconnected).2.2 _ rfl).2.2.2 1 (by decide) (by decide)⟩

end LambdaMoo.Connections
